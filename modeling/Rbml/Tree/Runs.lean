import Rbml.Tree.Walk

/-!
# Insertions one after the other

Whatever elements are inserted into an empty tree, in whatever order, what is there then is a
red-black tree with the first element under each key, in ascending order. The loops of an insertion
take at most twice the logarithm of the number of elements, and two turns more.
-/

namespace Rbml.Tree

open Rbml.Lib
open Rbml.Lib.RedBlack
open Rbml.Asm.Storage (Ptr)

variable {α κ : Type} [LinearOrder κ]

/-- `RB_INSERT` of some elements -/
def insertAll (cmp : α → α → Int) (fuel : Nat) (elms : List Ptr) (h : Heap α) : Option (Heap α) :=
  elms.foldlM (fun h elm => (rbInsert cmp fuel elm h).map Prod.fst) h

/-- The elements by their keys. Of the elements with one key it has the first. -/
def firsts (key : α → κ) (elms : List (Ptr × α)) : Table fun x : Ptr × α => key x.2 :=
  elms.foldl Table.insert Table.empty

section
variable {key : α → κ} {cmp : α → α → Int} {h : Heap α} {t : RBTree (Ptr × α)} {fuel : Nat}
  {elms : List (Ptr × α)}

/-- The heap has the elements, each in a node of its own. -/
structure Elements (h : Heap α) (elms : List (Ptr × α)) : Prop where
  distinct : (elms.map Prod.fst).Nodup
  nodes : ∀ x ∈ elms, ∃ node, h.nodes x.1 = some node ∧ node.entry = x.2

/-- Nodes without links, and an empty head -/
def loose (elms : List (Ptr × α)) : Heap α where
  root := none
  nodes p := (elms.find? fun x => x.1 == p).map fun x => ⟨x.2, none, none, none, .black⟩

theorem elements_loose (hdistinct : (elms.map Prod.fst).Nodup) : Elements (loose elms) elms := by
  refine ⟨hdistinct, fun x hx => ?_⟩
  have hfind : (elms.find? fun y => y.1 == x.1) = some x := by
    cases hfind : elms.find? fun y => y.1 == x.1 with
    | none => exact absurd (beq_self_eq_true x.1) (List.find?_eq_none.mp hfind x hx)
    | some y =>
      have hyx : y.1 = x.1 := by simpa only [beq_iff_eq] using List.find?_some hfind
      rw [List.inj_on_of_nodup_map hdistinct (List.mem_of_find?_eq_some hfind) hx hyx]
  exact ⟨⟨x.2, none, none, none, .black⟩, congrArg (Option.map _) hfind, rfl⟩

/-- One more insertion, of an element that is in no tree -/
theorem rbInsert_step {tab : Table fun x : Ptr × α => key x.2} {x : Ptr × α} {node : Node α}
    (hcmp : ∀ e, Compares key (cmp e) (key e)) (hholds : Holds key h t) (htab : t.inorder = tab.entries)
    (hnode : h.nodes x.1 = some node) (hentry : node.entry = x.2) (hx : x.1 ∉ addrs t)
    (hfuel : 2 * Nat.log 2 (t.inorder.length + 1) + 2 ≤ fuel) :
    ∃ h' t', (rbInsert cmp fuel x.1 h).map Prod.fst = some h' ∧ Holds key h' t' ∧
      t'.inorder = (tab.insert x).entries ∧ t'.inorder.length ≤ t.inorder.length + 1 ∧
      (∀ q ∈ addrs t', q = x.1 ∨ q ∈ addrs t) ∧ ∀ q, q ≠ x.1 → q ∉ addrs t → h'.nodes q = h.nodes q := by
  have hheight := hholds.height_le
  cases hfind : tab.find? (key x.2) with
  | none =>
    have hnew : (t.inorder.find? fun y => key y.2 == key node.entry) = none := by
      rw [htab, hentry]
      exact hfind
    have hroom : t.height + 2 ≤ fuel := by omega
    obtain ⟨h', t', hrun, hholds', hinorder, hframe⟩ :=
      rbInsert_new hholds hcmp hnode hx hnew hroom
    have hentries : t'.inorder = (tab.insert x).entries := by
      rw [hinorder, htab, hentry]
      rfl
    have hperm : t'.inorder.Perm (x :: t.inorder) := by
      rw [hentries, htab]
      exact Table.insert_perm hfind
    have hmem : ∀ q, q ∈ addrs t' ↔ q = x.1 ∨ q ∈ addrs t := fun q => by
      rw [addrs, (hperm.map Prod.fst).mem_iff, List.map_cons, List.mem_cons, addrs]
    refine ⟨h', t', by rw [hrun, Option.map_some], hholds', hentries, ?_, fun q => (hmem q).mp,
      fun q hqx hqt => hframe q fun hq => ?_⟩
    · rw [hperm.length_eq, List.length_cons]
    · rcases (hmem q).mp hq with heq | hq
      · exact hqx heq
      · exact hqt hq
  | some y =>
    have hold : (t.inorder.find? fun y => key y.2 == key node.entry) = some y := by
      rw [htab, hentry]
      exact hfind
    have hdown : t.height < fuel := by omega
    have hrun := rbInsert_old hholds hcmp hnode hold hdown
    refine ⟨h, t, by rw [hrun, Option.map_some], hholds, ?_, Nat.le_succ _, fun q => .inr,
      fun _ _ _ => rfl⟩
    rw [Table.insert_of_find? hfind, htab]

/-- What an insertion keeps, many of them keep. -/
theorem insertAll_spec {tab : Table fun x : Ptr × α => key x.2}
    (hcmp : ∀ e, Compares key (cmp e) (key e)) (hholds : Holds key h t) (htab : t.inorder = tab.entries)
    (helms : Elements h elms) (hapart : ∀ x ∈ elms, x.1 ∉ addrs t)
    (hfuel : 2 * Nat.log 2 (t.inorder.length + elms.length + 1) + 2 ≤ fuel) :
    ∃ h' t', insertAll cmp fuel (elms.map Prod.fst) h = some h' ∧ Holds key h' t' ∧
      t'.inorder = (elms.foldl Table.insert tab).entries ∧
      ∀ q, q ∉ elms.map Prod.fst → q ∉ addrs t → h'.nodes q = h.nodes q := by
  induction elms generalizing h t tab with
  | nil => exact ⟨h, t, rfl, hholds, htab, fun _ _ _ => rfl⟩
  | cons x elms ih =>
    obtain ⟨hdistinct, hnodes⟩ := helms
    obtain ⟨hx, hdistinct⟩ := List.nodup_cons.mp hdistinct
    obtain ⟨node, hnode, hentry⟩ := hnodes x List.mem_cons_self
    rw [List.length_cons] at hfuel
    have hlog : Nat.log 2 (t.inorder.length + 1) ≤ Nat.log 2 (t.inorder.length + (elms.length + 1) + 1) :=
      Nat.log_mono_right (by omega)
    have hfuel₁ : 2 * Nat.log 2 (t.inorder.length + 1) + 2 ≤ fuel := by omega
    obtain ⟨h₁, t₁, hrun, hholds₁, htab₁, hlength, haddrs, hframe⟩ :=
      rbInsert_step hcmp hholds htab hnode hentry (hapart x List.mem_cons_self) hfuel₁
    have hne : ∀ y ∈ elms, y.1 ≠ x.1 := fun y hy heq => hx (heq ▸ List.mem_map.mpr ⟨y, hy, rfl⟩)
    have helms₁ : Elements h₁ elms := by
      refine ⟨hdistinct, fun y hy => ?_⟩
      obtain ⟨node, hnode, hentry⟩ := hnodes y (List.mem_cons_of_mem _ hy)
      exact ⟨node, (hframe y.1 (hne y hy) (hapart y (List.mem_cons_of_mem _ hy))).trans hnode, hentry⟩
    have hapart₁ : ∀ y ∈ elms, y.1 ∉ addrs t₁ := by
      intro y hy hmem
      rcases haddrs _ hmem with heq | hmem
      · exact hne y hy heq
      · exact hapart y (List.mem_cons_of_mem _ hy) hmem
    have hlog₁ : Nat.log 2 (t₁.inorder.length + elms.length + 1) ≤
        Nat.log 2 (t.inorder.length + (elms.length + 1) + 1) := Nat.log_mono_right (by omega)
    obtain ⟨h', t', hrest, hholds', htab', hframe'⟩ := ih hholds₁ htab₁ helms₁ hapart₁ (by omega)
    refine ⟨h', t', ?_, hholds', htab', fun q hq hqt => ?_⟩
    · rw [insertAll, List.map_cons, List.foldlM_cons, hrun]
      exact hrest
    · rw [List.map_cons, List.mem_cons, not_or] at hq
      refine (hframe' q hq.2 fun hq₁ => ?_).trans (hframe q hq.1 hqt)
      rcases haddrs q hq₁ with heq | hq₁
      · exact hq.1 heq
      · exact hqt hq₁

/-- From an empty head -/
theorem insertAll_empty (hcmp : ∀ e, Compares key (cmp e) (key e)) (hroot : h.root = none)
    (helms : Elements h elms) (hfuel : 2 * Nat.log 2 (elms.length + 1) + 2 ≤ fuel) :
    ∃ h' t, insertAll cmp fuel (elms.map Prod.fst) h = some h' ∧ Holds key h' t ∧
      t.inorder = (firsts key elms).entries ∧
      ∀ q, q ∉ elms.map Prod.fst → h'.nodes q = h.nodes q := by
  have hempty : Holds key h .nil := ⟨⟨hroot, trivial, trivial, .nil⟩, .nil, rfl, 0, rfl⟩
  have htab : (RBTree.nil : RBTree (Ptr × α)).inorder =
      (Table.empty : Table fun x : Ptr × α => key x.2).entries := rfl
  have hroom : 2 * Nat.log 2 ((RBTree.nil : RBTree (Ptr × α)).inorder.length + elms.length + 1) + 2 ≤
      fuel := by
    rw [RBTree.inorder, List.length_nil, Nat.zero_add]
    exact hfuel
  obtain ⟨h', t, hrun, hholds, hinorder, hframe⟩ :=
    insertAll_spec hcmp hempty htab helms (fun _ _ hmem => by cases hmem) hroom
  refine ⟨h', t, hrun, hholds, hinorder, fun q hq => hframe q hq fun hmem => ?_⟩
  cases hmem

theorem find?_firsts (k : κ) :
    ((firsts key elms).entries.find? fun x => key x.2 == k) = elms.find? fun x => key x.2 == k := by
  have hfind := Table.find?_foldl_insert elms (Table.empty : Table fun x : Ptr × α => key x.2) k
  rw [Table.find?_empty, Option.none_or] at hfind
  exact hfind

theorem length_firsts_le : (firsts key elms).entries.length ≤ elms.length := by
  have hgrow : ∀ tab : Table fun x : Ptr × α => key x.2,
      (elms.foldl Table.insert tab).entries.length ≤ tab.entries.length + elms.length := by
    induction elms with
    | nil => exact fun _ => Nat.le_refl _
    | cons x elms ih =>
      intro tab
      rw [List.foldl_cons, List.length_cons]
      refine (ih _).trans ?_
      have hone : (tab.insert x).entries.length ≤ tab.entries.length + 1 := by
        cases hfind : tab.find? (key x.2) with
        | none => exact (Table.insert_perm hfind).length_eq.le
        | some y => exact (Table.insert_of_find? hfind ▸ Nat.le_succ _)
      omega
  have hle := hgrow Table.empty
  rwa [Table.empty, List.length_nil, Nat.zero_add] at hle

/-! ## What is there after them -/

/-- The elements are in a red-black tree, each key once and in order. -/
theorem insertAll_red_black (hcmp : ∀ e, Compares key (cmp e) (key e)) (hroot : h.root = none)
    (helms : Elements h elms) (hfuel : 2 * Nat.log 2 (elms.length + 1) + 2 ≤ fuel) :
    ∃ h' t, insertAll cmp fuel (elms.map Prod.fst) h = some h' ∧ At h' t [] ∧
      t.color = .black ∧ (∃ n, t.Balanced n) ∧ t.height ≤ 2 * Nat.log 2 (t.inorder.length + 1) ∧
      t.inorder = (firsts key elms).entries ∧
      ∀ q, q ∉ elms.map Prod.fst → h'.nodes q = h.nodes q := by
  obtain ⟨h', t, hrun, hholds, hinorder, hframe⟩ := insertAll_empty hcmp hroot helms hfuel
  exact ⟨h', t, hrun, hholds.spelled, hholds.black, hholds.balanced, hholds.height_le, hinorder, hframe⟩

/-- The difference of two numbers compares them. -/
theorem compares_sub (a : Nat) : Compares (fun n : Nat => n) (fun b => (a : Int) - b) a := by
  intro b
  have hneg : (a : Int) - b < 0 ↔ a < b := by omega
  have hpos : 0 < (a : Int) - b ↔ b < a := by omega
  exact ⟨hneg, hpos⟩

/-- Three elements, two of them with one key -/
theorem elements_three : Elements (loose [(1, 5), (2, 3), (3, 5)]) [(1, 5), (2, 3), (3, 5)] := by
  refine elements_loose ?_
  decide

theorem enough_three : 2 * Nat.log 2 4 + 2 ≤ 8 := by
  have hlog : Nat.log 2 4 < 3 := Nat.log_lt_of_lt_pow (by decide) (by decide)
  omega

theorem insertAll_red_black_three :
    ∃ h' t, insertAll (fun a b : Nat => (a : Int) - b) 8 [1, 2, 3] (loose [(1, 5), (2, 3), (3, 5)]) =
        some h' ∧ At h' t [] ∧
      t.color = .black ∧ (∃ n, t.Balanced n) ∧ t.height ≤ 2 * Nat.log 2 (t.inorder.length + 1) ∧
      t.inorder = (firsts (fun n : Nat => n) [(1, 5), (2, 3), (3, 5)]).entries ∧
      ∀ q, q ∉ [1, 2, 3] → h'.nodes q = (loose [(1, 5), (2, 3), (3, 5)]).nodes q :=
  insertAll_red_black compares_sub rfl elements_three enough_three

/-- A lookup finds the first element that was inserted under a key, in logarithmic time. -/
theorem rbFind_insertAll (hcmp : ∀ e, Compares key (cmp e) (key e)) (hroot : h.root = none)
    (helms : Elements h elms) (hfuel : 2 * Nat.log 2 (elms.length + 1) + 2 ≤ fuel) :
    ∃ h', insertAll cmp fuel (elms.map Prod.fst) h = some h' ∧
      ∀ (k : κ) (comp : α → Int), Compares key comp k →
        rbFind comp (2 * Nat.log 2 (elms.length + 1) + 1) h' =
          some ((elms.find? fun x => key x.2 == k).map Prod.fst) := by
  obtain ⟨h', t, hrun, hholds, hinorder, -⟩ := insertAll_empty hcmp hroot helms hfuel
  refine ⟨h', hrun, fun k comp hcomp => ?_⟩
  have hlength : t.inorder.length ≤ elms.length := hinorder ▸ length_firsts_le
  have hlog : Nat.log 2 (t.inorder.length + 1) ≤ Nat.log 2 (elms.length + 1) :=
    Nat.log_mono_right (by omega)
  have hheight := hholds.height_le
  have hdown : t.height < 2 * Nat.log 2 (elms.length + 1) + 1 := by omega
  rw [rbFind_spec hholds hcomp hdown, hinorder, find?_firsts]

theorem rbFind_insertAll_three :
    ∃ h', insertAll (fun a b : Nat => (a : Int) - b) 8 [1, 2, 3] (loose [(1, 5), (2, 3), (3, 5)]) =
        some h' ∧
      ∀ (k : Nat) (comp : Nat → Int), Compares (fun n : Nat => n) comp k →
        rbFind comp (2 * Nat.log 2 4 + 1) h' =
          some (([(1, 5), (2, 3), (3, 5)].find? fun x => x.2 == k).map Prod.fst) :=
  rbFind_insertAll compares_sub rfl elements_three enough_three

/-- `RB_FOREACH` comes to each of these elements once, in ascending order of their keys. -/
theorem rbForeach_insertAll (hcmp : ∀ e, Compares key (cmp e) (key e)) (hroot : h.root = none)
    (helms : Elements h elms) (hfuel : 2 * Nat.log 2 (elms.length + 1) + 2 ≤ fuel) :
    ∃ h', insertAll cmp fuel (elms.map Prod.fst) h = some h' ∧
      Settles (rbForeach (fun visited p => some (visited ++ [p])) h' [])
        ((firsts key elms).entries.map Prod.fst) := by
  obtain ⟨h', t, hrun, hholds, hinorder, -⟩ := insertAll_empty hcmp hroot helms hfuel
  refine ⟨h', hrun, settles_rbForeach hholds.spelled ?_⟩
  have hcollect : ∀ ps visited : List Ptr,
      ps.foldlM (fun visited p => some (visited ++ [p])) visited = some (visited ++ ps) := by
    intro ps
    induction ps with
    | nil => simp
    | cons p ps ih =>
      intro visited
      rw [List.foldlM_cons, Option.bind_eq_bind, Option.bind_some, ih]
      simp
  rw [addrs, hinorder]
  exact hcollect _ []

theorem rbForeach_insertAll_three :
    ∃ h', insertAll (fun a b : Nat => (a : Int) - b) 8 [1, 2, 3] (loose [(1, 5), (2, 3), (3, 5)]) =
        some h' ∧
      Settles (rbForeach (fun visited p => some (visited ++ [p])) h' [])
        ((firsts (fun n : Nat => n) [(1, 5), (2, 3), (3, 5)]).entries.map Prod.fst) :=
  rbForeach_insertAll compares_sub rfl elements_three enough_three

end

end Rbml.Tree
