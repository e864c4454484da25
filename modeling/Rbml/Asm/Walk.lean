import Mathlib.Data.List.Nodup
import Mathlib.Data.Tree.Basic
import Rbml.Asm.Release

/-!
# The walk of `code_free`

`IsTree` says which tree the links of a store spell. `leftmost` is where `RB_MINMAX` and the descent of
`RB_NEXT` end.

A subtree without right children is a chain of left children, and the walk releases it from the bottom
up: the successor of a node is its parent, which is not released yet, so that no link of a released
node is read (`walk_chain`). Any other tree has a right child that is the root of such a chain. Under
`hostile` the walk comes from that child to its released parent once more (`walk_twice`).
-/

namespace Rbml.Asm.Storage

open Rbml.Lib

/-! ## Trees in storage -/

/-- The symbols of a tree in the order of the walk -/
def inorder : BinaryTree Ptr → List Ptr
  | .nil => []
  | .node p l r => inorder l ++ p :: inorder r

@[simp] theorem mem_inorder_node {p q : Ptr} {l r : BinaryTree Ptr} :
    q ∈ inorder (.node p l r) ↔ q ∈ inorder l ∨ q = p ∨ q ∈ inorder r := by
  simp [inorder]

theorem nodup_inorder_node {p : Ptr} {l r : BinaryTree Ptr} (h : (inorder (.node p l r)).Nodup) :
    (inorder l).Nodup ∧ (inorder r).Nodup ∧ p ∉ inorder l ∧ p ∉ inorder r ∧
      ∀ q ∈ inorder l, q ∉ inorder r := by
  obtain ⟨hl, hpr, hapart⟩ := List.nodup_append.mp h
  obtain ⟨hp, hr⟩ := List.nodup_cons.mp hpr
  refine ⟨hl, hr, ?_, hp, ?_⟩
  · intro hpl
    exact hapart p hpl p List.mem_cons_self rfl
  · intro q hql hqr
    exact hapart q hql q (List.mem_cons_of_mem _ hqr) rfl

/-- The links of `symbols` spell `t`, below `parent`. -/
def IsTree (symbols : Ptr → Option SymbolNode) : Option Ptr → Option Ptr → BinaryTree Ptr → Prop
  | root, _, .nil => root = none
  | root, parent, .node p l r => root = some p ∧ ∃ node, symbols p = some node ∧
      node.parent = parent ∧ IsTree symbols node.left (some p) l ∧
      IsTree symbols node.right (some p) r

/-- No node has a right child. -/
def RightFree : BinaryTree Ptr → Prop
  | .nil => True
  | .node _ l r => r = .nil ∧ RightFree l

/-- The first node of a tree in the order of the walk, and the parent of an empty tree -/
def leftmost : BinaryTree Ptr → Option Ptr → Option Ptr
  | .nil, parent => parent
  | .node p l _, _ => leftmost l (some p)

section
variable {symbols symbols' : Ptr → Option SymbolNode} {root parent : Option Ptr}
  {t : BinaryTree Ptr} {p : Ptr}

theorem IsTree.frame (h : IsTree symbols root parent t)
    (heq : ∀ q ∈ inorder t, symbols' q = symbols q) : IsTree symbols' root parent t := by
  induction t generalizing root parent with
  | nil => exact h
  | node p l r ihl ihr =>
    obtain ⟨hroot, node, hnode, hparent, hl, hr⟩ := h
    refine ⟨hroot, node, ?_, hparent, ihl hl ?_, ihr hr ?_⟩
    · rw [heq p (by simp), hnode]
    · intro q hq
      exact heq q (by simp [hq])
    · intro q hq
      exact heq q (by simp [hq])

/-! ## The loops of `RB_MINMAX` and `RB_NEXT` -/

theorem settles_rbMinmax (h : IsTree symbols root parent t) :
    Settles (rbMinmax symbols root (-1)) (leftmost t none) := by
  suffices ∀ q, Settles (fun fuel => loop (fun _ => rbMinmaxTurn symbols (-1)) fuel (root, q))
      (leftmost t q) from this none
  induction t generalizing root parent with
  | nil =>
    intro q
    cases h
    exact settles_loop_inr (n := 0) rfl
  | node p l r ihl =>
    intro q
    obtain ⟨rfl, node, hnode, -, hl, -⟩ := h
    have hturn : rbMinmaxTurn symbols (-1) (some p, q) = some (.inl (node.left, some p)) := by
      simp [rbMinmaxTurn, hnode]
    exact (settles_loop_turn hturn).mpr (ihl hl (some p))

theorem settles_descend {l r : BinaryTree Ptr} (h : IsTree symbols (some p) parent (.node p l r)) :
    Settles (fun fuel => loop (fun _ => descendTurn symbols) fuel p) (leftmost l (some p)) := by
  induction l generalizing p parent r with
  | nil =>
    obtain ⟨-, node, hnode, -, hl, -⟩ := h
    have hl : node.left = none := hl
    exact settles_loop_inr (n := 0) (by simp [descendTurn, hnode, hl, leftmost])
  | node q ll lr ihl =>
    obtain ⟨-, node, hnode, -, hl, -⟩ := h
    have hleft : node.left = some q := hl.1
    rw [hleft] at hl
    have hturn : descendTurn symbols p = some (.inl q) := by simp [descendTurn, hnode, hleft]
    exact (settles_loop_turn hturn).mpr (ihl hl)

/-- The successor of a node with a right child -/
theorem settles_rbNext_right {node : SymbolNode} {q : Ptr} {l r : BinaryTree Ptr}
    (hnode : symbols p = some node) (hright : IsTree symbols node.right (some p) (.node q l r)) :
    Settles (rbNext symbols p) (leftmost (.node q l r) (some p)) := by
  have hq : node.right = some q := hright.1
  rw [hq] at hright
  obtain ⟨n, hn⟩ := settles_descend hright
  refine ⟨n, ?_⟩
  simp only [rbNext, hnode, hq, Option.bind_eq_bind, Option.bind_some]
  exact hn

/-- Without a right child the successor is the parent, unless the parent has the node on its right. -/
theorem settles_rbNext_parent {node : SymbolNode} (hnode : symbols p = some node)
    (hright : node.right = none)
    (hparent : ∀ q, node.parent = some q →
      ∃ above, symbols q = some above ∧ (above.left = some p ∨ above.right ≠ some p)) :
    Settles (rbNext symbols p) node.parent := by
  refine ⟨1, ?_⟩
  cases hq : node.parent with
  | none => simp [rbNext, hnode, hright, hq, isLeftChild, loop, climbTurn]
  | some q =>
    obtain ⟨above, habove, hchild⟩ := hparent q hq
    by_cases hleft : above.left = some p
    · simp [rbNext, hnode, hright, hq, isLeftChild, habove, hleft]
    · have hother := hchild.resolve_left hleft
      simp [rbNext, hnode, hright, hq, isLeftChild, habove, hleft, loop, climbTurn, hother]

theorem steady_rbNext (symbols : Ptr → Option SymbolNode) (p : Ptr) : Steady (rbNext symbols p) := by
  intro n q h
  obtain ⟨node, hnode, h⟩ := Option.bind_eq_some_iff.mp h
  simp only [rbNext, hnode, Option.bind_eq_bind, Option.bind_some]
  cases hright : node.right with
  | some right =>
    simp only [hright] at h ⊢
    exact steady_loop_turn (descendTurn symbols) right n q h
  | none =>
    simp only [hright] at h ⊢
    obtain ⟨left, hleft, h⟩ := Option.bind_eq_some_iff.mp h
    rw [hleft, Option.bind_some]
    cases left with
    | true => exact h
    | false => exact steady_loop_turn (climbTurn symbols) p n q h

end

/-! ## Turns of the walk -/

section
variable {free : Free} {st st' : Store} {p : Ptr} {node : SymbolNode}

theorem steady_codeFreeTurn (free : Free) (s : Option Ptr × Store) :
    Steady fun fuel => codeFreeTurn free fuel s := by
  obtain ⟨s, st⟩ := s
  cases s with
  | none => exact steady_const _
  | some s =>
    exact (steady_rbNext st.symbols s).bind fun _ =>
      (steady_symbolFree free s st).bind fun _ => steady_const _

theorem settles_codeFreeFrom_none (free : Free) (st : Store) :
    Settles (codeFreeFrom free none st) st :=
  settles_loop_inr (n := 0) rfl

/-- A turn on a symbol without pending references -/
theorem settles_codeFreeFrom_some {next : Option Ptr} (hnode : st.symbols p = some node)
    (hrefs : node.symbolRefs = none) (hnext : Settles (rbNext st.symbols p) next) :
    Settles (codeFreeFrom free (some p) st) st' ↔
      Settles (codeFreeFrom free next (released free p node st)) st' := by
  obtain ⟨k, hk⟩ := hnext
  have hturn : ∀ n, k + 1 ≤ n →
      codeFreeTurn free n (some p, st) = some (.inl (next, released free p node st)) := by
    intro n hn
    obtain ⟨n, rfl⟩ := Nat.exists_eq_add_of_le' hn
    have hnext := (steady_rbNext st.symbols p).le (show k ≤ n + k + 1 by omega) hk
    have hfree : symbolFree free (n + k + 1) p st = some (released free p node st) :=
      symbolFree_of_noRefs hnode hrefs
    simp only [codeFreeTurn, ← Nat.add_assoc, hnext, hfree, Option.bind_eq_bind, Option.bind_some]
  exact settles_loop_inl (steady_codeFreeTurn free) hturn

/-- A tree that is a chain of left children is released from the bottom up, and the walk comes to its
parent, unless this has the tree on its right. -/
theorem walk_chain (free : Free) {t : BinaryTree Ptr} {root parent : Option Ptr} (hchain : RightFree t)
    (htree : IsTree st.symbols root parent t) (hnodup : (inorder t).Nodup)
    (hrefs : ∀ q ∈ inorder t, NoRefs st q)
    (hparent : ∀ q, parent = some q → q ∉ inorder t ∧
      ∃ above, st.symbols q = some above ∧ (above.left = root ∨ above.right ≠ root)) :
    ∃ st₁, st₁.events = st.events ++ (inorder t).map .releaseSymbol ∧
      (∀ q, q ∉ inorder t → st₁.symbols q = st.symbols q) ∧
      ∀ st', Settles (codeFreeFrom free (leftmost t parent) st) st' ↔
        Settles (codeFreeFrom free parent st₁) st' := by
  induction t generalizing root parent with
  | nil => exact ⟨st, by simp [inorder], fun _ _ => rfl, fun _ => Iff.rfl⟩
  | node p l r ihl =>
    obtain ⟨rfl, hl⟩ := hchain
    obtain ⟨rfl, node, hnode, hup, hleft, hright⟩ := htree
    obtain ⟨hlnodup, -, hpl, -, -⟩ := nodup_inorder_node hnodup
    obtain ⟨st₁, hevents, hframe, hwalk⟩ := ihl hl hleft hlnodup
      (fun q hq => hrefs q (by simp [hq]))
      (fun q hq => by cases hq; exact ⟨hpl, node, hnode, .inl rfl⟩)
    have hnode₁ : st₁.symbols p = some node := (hframe p hpl).trans hnode
    have hnorefs : node.symbolRefs = none := (hrefs p (by simp)).symbolRefs hnode
    have hnext : Settles (rbNext st₁.symbols p) parent := by
      rw [← hup]
      refine settles_rbNext_parent hnode₁ hright fun q hq => ?_
      obtain ⟨hq, above, habove, hchild⟩ := hparent q (hup.symm.trans hq)
      have hql : q ∉ inorder l := fun h => hq (by simp [h])
      exact ⟨above, (hframe q hql).trans habove, hchild⟩
    refine ⟨released free p node st₁, ?_, ?_, ?_⟩
    · simp [released, hevents, inorder]
    · intro q hq
      simp only [mem_inorder_node, not_or] at hq
      exact (Function.update_of_ne hq.2.1 _ _).trans (hframe q hq.1)
    · intro st'
      exact (hwalk st').trans (settles_codeFreeFrom_some hnode₁ hnorefs hnext)

end

/-! ## The walk under `hostile` -/

section
variable {st st' : Store} {s : Option Ptr} {p : Ptr} {fuel : Nat}

theorem symbolFree_hostile_eq (h : symbolFree hostile fuel p st = some st') :
    ∃ node, st.symbols p = some node ∧ node.symbolRefs = none ∧
      st' = released hostile p node st := by
  obtain ⟨st₁, hrefs, -⟩ := Option.bind_eq_some_iff.mp h
  cases fuel with
  | zero => cases hrefs
  | succ fuel =>
    cases hnode : st.symbols p with
    | none => simp [releaseRefs, loop, releaseTurn, hnode] at hrefs
    | some node =>
      cases hhead : node.symbolRefs with
      | none =>
        cases (symbolFree_of_noRefs hnode hhead).symm.trans h
        exact ⟨node, rfl, hhead, rfl⟩
      | some ref => cases (symbolFree_hostile hnode hhead).symm.trans h

theorem codeFreeTurn_hostile {next : (Option Ptr × Store) ⊕ Store}
    (h : codeFreeTurn hostile fuel (some p, st) = some next) :
    ∃ q node, st.symbols p = some node ∧ node.symbolRefs = none ∧
      next = .inl (q, released hostile p node st) := by
  obtain ⟨q, -, h⟩ := Option.bind_eq_some_iff.mp h
  obtain ⟨st₁, hfree, h⟩ := Option.bind_eq_some_iff.mp h
  obtain ⟨node, hnode, hrefs, rfl⟩ := symbolFree_hostile_eq hfree
  cases h
  exact ⟨q, node, hnode, hrefs, rfl⟩

/-- Nothing that happened is undone. -/
theorem count_le_walk {e : Event} (h : codeFreeFrom hostile s st fuel = some st') :
    st.events.count e ≤ st'.events.count e := by
  refine loop_result (P := fun x => st.events.count e ≤ x.2.events.count e)
    (Q := fun x => st.events.count e ≤ x.events.count e) ?_ ?_ (Nat.le_refl _) h
  · intro n x x' hx hturn
    obtain ⟨_ | q, st₁⟩ := x
    · cases hturn
    · obtain ⟨_, node, -, -, hnext⟩ := codeFreeTurn_hostile hturn
      cases hnext
      simp only [released, List.count_append]
      exact Nat.le_add_right_of_le hx
  · intro n x x' hx hturn
    obtain ⟨_ | q, st₁⟩ := x
    · cases hturn
      exact hx
    · obtain ⟨_, _, -, -, hnext⟩ := codeFreeTurn_hostile hturn
      cases hnext

/-- A walk that starts on `p` releases it. -/
theorem count_lt_walk (h : Settles (codeFreeFrom hostile (some p) st) st') :
    st.events.count (.releaseSymbol p) < st'.events.count (.releaseSymbol p) := by
  obtain ⟨fuel, h⟩ := h
  cases fuel with
  | zero => cases h
  | succ fuel =>
    rcases loop_cases h with hturn | ⟨next, hturn, hloop⟩
    · obtain ⟨q, node, -, -, hnext⟩ := codeFreeTurn_hostile hturn
      cases hnext
    · obtain ⟨q, node, -, -, hnext⟩ := codeFreeTurn_hostile hturn
      cases hnext
      have hrest := count_le_walk (e := .releaseSymbol p) hloop
      simp only [released, List.count_append, List.count_singleton_self] at hrest
      omega

/-- Below a right child the walk comes back to a released node: some node is released twice. -/
theorem walk_twice {t : BinaryTree Ptr} {root parent : Option Ptr}
    (htree : IsTree st.symbols root parent t) (hnodup : (inorder t).Nodup)
    (hrefs : ∀ q ∈ inorder t, NoRefs st q) (hchain : ¬ RightFree t)
    (h : Settles (codeFreeFrom hostile (leftmost t parent) st) st') :
    ∃ q ∈ inorder t, st.events.count (.releaseSymbol q) + 1 < st'.events.count (.releaseSymbol q) := by
  induction t generalizing root parent st with
  | nil => exact absurd trivial hchain
  | node p l r ihl ihr =>
    obtain ⟨rfl, node, hnode, -, hleft, hright⟩ := htree
    obtain ⟨hlnodup, hrnodup, hpl, hpr, hapart⟩ := nodup_inorder_node hnodup
    have hlrefs : ∀ q ∈ inorder l, NoRefs st q := fun q hq => hrefs q (by simp [hq])
    by_cases hl : RightFree l
    case neg =>
      obtain ⟨q, hq, htwice⟩ := ihl hleft hlnodup hlrefs hl h
      exact ⟨q, by simp [hq], htwice⟩
    -- The walk comes up to `p`, and `p` has a right child, so that it is released next.
    obtain ⟨st₁, hevents₁, hframe₁, hwalk₁⟩ := walk_chain hostile hl hleft hlnodup hlrefs
      (fun q hq => by cases hq; exact ⟨hpl, node, hnode, .inl rfl⟩)
    have hnode₁ : st₁.symbols p = some node := (hframe₁ p hpl).trans hnode
    have hnorefs : node.symbolRefs = none := (hrefs p (by simp)).symbolRefs hnode
    have hright₁ : IsTree st₁.symbols node.right (some p) r :=
      hright.frame fun q hq => hframe₁ q fun hql => hapart q hql hq
    cases r with
    | nil => exact absurd ⟨rfl, hl⟩ hchain
    | node q rl rr =>
      have hnext := settles_rbNext_right hnode₁ hright₁
      have hwalk₂ := (settles_codeFreeFrom_some hnode₁ hnorefs hnext).mp ((hwalk₁ st').mp h)
      have hframe₂ : ∀ x ∈ inorder (.node q rl rr), (released hostile p node st₁).symbols x =
          st.symbols x := by
        intro x hx
        have hxp : x ≠ p := fun hxp => hpr (hxp ▸ hx)
        exact (Function.update_of_ne hxp _ _).trans (hframe₁ x fun hxl => hapart x hxl hx)
      have hright₂ := hright.frame hframe₂
      have hrrefs : ∀ x ∈ inorder (.node q rl rr), NoRefs (released hostile p node st₁) x := by
        intro x hx
        obtain ⟨nodex, hnodex, hnone⟩ := hrefs x (mem_inorder_node.mpr (.inr (.inr hx)))
        exact ⟨nodex, (hframe₂ x hx).trans hnodex, hnone⟩
      by_cases hr : RightFree (.node q rl rr)
      case neg =>
        obtain ⟨x, hx, htwice⟩ := ihr hright₂ hrnodup hrrefs hr hwalk₂
        refine ⟨x, mem_inorder_node.mpr (.inr (.inr hx)), ?_⟩
        simp only [released, hevents₁, List.count_append] at htwice
        omega
      -- The right child ends a chain, and its parent `p` does not know it any more.
      obtain ⟨st₃, hevents₃, -, hwalk₃⟩ := walk_chain hostile hr hright₂ hrnodup hrrefs
        (fun x hx => by
          cases hx
          have hroot : node.right = some q := hright.1
          exact ⟨hpr, _, Function.update_self _ _ _, .inr (by simp [hostile, hroot])⟩)
      have htwice := count_lt_walk ((hwalk₃ st').mp hwalk₂)
      refine ⟨p, by simp, ?_⟩
      simp only [hevents₃, released, hevents₁, List.count_append, List.count_singleton_self] at htwice
      omega

/-- A symbol with pending references is not released. -/
theorem count_eq_walk {node : SymbolNode} {ref : Ptr} (hnode : st.symbols p = some node)
    (hrefs : node.symbolRefs = some ref) (h : codeFreeFrom hostile s st fuel = some st') :
    st'.events.count (.releaseSymbol p) = st.events.count (.releaseSymbol p) := by
  refine loop_result (P := fun x => x.2.symbols p = some node ∧
    x.2.events.count (.releaseSymbol p) = st.events.count (.releaseSymbol p))
    (Q := fun x => x.events.count (.releaseSymbol p) = st.events.count (.releaseSymbol p))
    ?_ ?_ ⟨hnode, rfl⟩ h
  · intro n x x' hx hturn
    obtain ⟨_ | q, st₁⟩ := x
    · cases hturn
    · obtain ⟨hp, hcount⟩ := hx
      obtain ⟨_, node', hq, hnone, hnext⟩ := codeFreeTurn_hostile hturn
      cases hnext
      have hpq : p ≠ q := by
        intro hpq
        subst hpq
        cases hp.symm.trans hq
        cases hrefs.symm.trans hnone
      have hevent : (Event.releaseSymbol q) ≠ .releaseSymbol p := fun h => hpq (by cases h; rfl)
      refine ⟨(Function.update_of_ne hpq _ _).trans hp, ?_⟩
      simp only [released, List.count_append, List.count_singleton, hcount]
      simp [hevent]
  · intro n x x' hx hturn
    obtain ⟨_ | q, st₁⟩ := x
    · cases hturn
      exact hx.2
    · obtain ⟨_, _, -, -, hnext⟩ := codeFreeTurn_hostile hturn
      cases hnext

end

/-! ## Each symbol once -/

/-- `code_free` ends, and has released every symbol of `t` exactly once. -/
def ReleasesOnce (free : Free) (root : Option Ptr) (st : Store) (t : BinaryTree Ptr) : Prop :=
  ∃ st', Settles (codeFree free root st) st' ∧
    ∀ p ∈ inorder t, st'.events.count (.releaseSymbol p) = st.events.count (.releaseSymbol p) + 1

section
variable {st st' : Store} {root : Option Ptr} {t : BinaryTree Ptr} {free : Free}

theorem settles_codeFree (htree : IsTree st.symbols root none t) :
    Settles (codeFree free root st) st' ↔ Settles (codeFreeFrom free (leftmost t none) st) st' :=
  (steady_loop_turn (rbMinmaxTurn st.symbols (-1)) (root, none)).settles_bind
    (fun s => steady_loop (steady_codeFreeTurn free) (s, st)) (settles_rbMinmax htree)

theorem IsTree.exists_node {parent : Option Ptr} (htree : IsTree st.symbols root parent t) {p : Ptr}
    (hp : p ∈ inorder t) : ∃ node, st.symbols p = some node := by
  induction t generalizing root parent with
  | nil => cases hp
  | node q l r ihl ihr =>
    obtain ⟨-, node, hnode, -, hl, hr⟩ := htree
    rcases mem_inorder_node.mp hp with hp | rfl | hp
    · exact ihl hl hp
    · exact ⟨node, hnode⟩
    · exact ihr hr hp

theorem releasesOnce_of_rightFree (free : Free) (htree : IsTree st.symbols root none t)
    (hnodup : (inorder t).Nodup) (hrefs : ∀ p ∈ inorder t, NoRefs st p) (hchain : RightFree t) :
    ReleasesOnce free root st t := by
  obtain ⟨st₁, hevents, -, hwalk⟩ := walk_chain free hchain htree hnodup hrefs
    (fun q hq => by cases hq)
  refine ⟨st₁, (settles_codeFree htree).mpr ((hwalk st₁).mpr (settles_codeFreeFrom_none free st₁)), ?_⟩
  intro p hp
  have hinj : Function.Injective Event.releaseSymbol := fun _ _ h => by cases h; rfl
  rw [hevents, List.count_append,
    List.count_eq_one_of_mem (hnodup.map hinj) (List.mem_map_of_mem hp)]

theorem releasesOnce_iff (htree : IsTree st.symbols root none t) (hnodup : (inorder t).Nodup) :
    (∀ free, ReleasesOnce free root st t) ↔
      (∀ p ∈ inorder t, NoRefs st p) ∧ RightFree t := by
  constructor
  · intro h
    obtain ⟨st', hsettles, honce⟩ := h hostile
    have hwalk := (settles_codeFree htree).mp hsettles
    have hrefs : ∀ p ∈ inorder t, NoRefs st p := by
      intro p hp
      obtain ⟨node, hnode⟩ := htree.exists_node hp
      cases hhead : node.symbolRefs with
      | none => exact ⟨node, hnode, hhead⟩
      | some ref =>
        obtain ⟨fuel, hfuel⟩ := hwalk
        have hkept := count_eq_walk hnode hhead hfuel
        have honce := honce p hp
        omega
    refine ⟨hrefs, ?_⟩
    by_contra hchain
    obtain ⟨q, hq, htwice⟩ := walk_twice htree hnodup hrefs hchain hwalk
    have honce := honce q hq
    omega
  · intro h free
    exact releasesOnce_of_rightFree free htree hnodup h.1 h.2

end

/-- The three loops do what they are for under every behaviour of `free` exactly where they have
nothing to release before they read on: no pending reference, and no right child. -/
theorem walks_independent_of_free_iff {st : Store} {s : Ptr} {node : SymbolNode} {l : List Ptr}
    {root : Option Ptr} {t : BinaryTree Ptr} (hnode : st.symbols s = some node)
    (hl : RefList st.refs node.symbolRefs l) (htree : IsTree st.symbols root none t)
    (hnodup : (inorder t).Nodup) :
    ((∀ free lineNum offset, DefinesOnce free s lineNum offset st l) ↔ l = []) ∧
      ((∀ free, FreesOnce free s st l) ↔ l = []) ∧
      ((∀ free, ReleasesOnce free root st t) ↔
        (∀ p ∈ inorder t, NoRefs st p) ∧ RightFree t) :=
  ⟨definesOnce_iff hnode hl, freesOnce_iff hnode hl, releasesOnce_iff htree hnodup⟩

/-- The storage after `a: LOD R0, b`: the symbol `a`, at `0`, is the root with the symbol `b`, at `1`, on
its right. The line, the offset and the first reference of `b` are those before or after `b:`. -/
def labelsStore (lineNum offset : Nat) (pending : Option Ptr) : Store where
  refs ref := if ref = 7 then some ⟨1, 0, none⟩ else none
  symbols s :=
    if s = 0 then some ⟨1, 0, none, some 1, none, none⟩
    else if s = 1 then some ⟨lineNum, offset, none, none, some 0, pending⟩ else none
  text := [0x03000000]
  events := []

/-- The tree of `a` and `b` -/
def labelsTree : BinaryTree Ptr := .node 0 .nil (.node 1 .nil .nil)

theorem labelsStore_isTree (lineNum offset : Nat) (pending : Option Ptr) :
    IsTree (labelsStore lineNum offset pending).symbols (some 0) none labelsTree :=
  ⟨rfl, _, rfl, rfl, rfl, rfl, _, rfl, rfl, rfl, rfl⟩

theorem walks_independent_of_free_labels :
    ((∀ free lineNum offset, DefinesOnce free 0 lineNum offset (labelsStore 2 1 none) []) ↔
        ([] : List Ptr) = []) ∧
      ((∀ free, FreesOnce free 0 (labelsStore 2 1 none) []) ↔ ([] : List Ptr) = []) ∧
      ((∀ free, ReleasesOnce free (some 0) (labelsStore 2 1 none) labelsTree) ↔
        (∀ p ∈ inorder labelsTree, NoRefs (labelsStore 2 1 none) p) ∧ RightFree labelsTree) :=
  walks_independent_of_free_iff rfl rfl (labelsStore_isTree 2 1 none) (by decide)

/-- One pending reference is enough for `symbol_define` and `symbol_free` to fail, and two labels for
`code_free`. -/
theorem walks_depend_on_free :
    ¬ (∀ free lineNum offset, DefinesOnce free 1 lineNum offset (labelsStore 0 0 (some 7)) [7]) ∧
      ¬ (∀ free, FreesOnce free 1 (labelsStore 0 0 (some 7)) [7]) ∧
      ¬ (∀ free, ReleasesOnce free (some 0) (labelsStore 2 1 none) labelsTree) := by
  have hpending : RefList (labelsStore 0 0 (some 7)).refs (some 7) [7] := ⟨rfl, _, rfl, rfl⟩
  refine ⟨?_, ?_, ?_⟩
  · intro h
    cases (definesOnce_iff rfl hpending).mp h
  · intro h
    cases (freesOnce_iff rfl hpending).mp h
  · intro h
    have hchain := ((releasesOnce_iff (labelsStore_isTree 2 1 none) (by decide)).mp h).2
    cases hchain.1

end Rbml.Asm.Storage
