import Rbml.Tree.Rotate

/-!
# `RB_INSERT_COLOR`

A turn of the loop on the links is a turn of `fixTurn` on the tree that they spell, taken apart at
`elm` (`insertColorTurn_inl`, `insertColorTurn_inr`). The loop takes the same number of turns
(`rbInsertColor_spec`).
-/

namespace Rbml.Tree

open Rbml.Lib
open Rbml.Lib.RedBlack
open Rbml.Lib.RedBlack.RBTree (join)
open Rbml.Asm.Storage (Ptr)

variable {α : Type}

section
variable {h : Heap α} {t : RBTree (Ptr × α)} {f g : Frame (Ptr × α)} {above : List (Frame (Ptr × α))}
  {elm : Ptr}

/-! ## Reads and writes of a turn -/

theorem isRed_spec {parent : Option Ptr} (hspells : Spells h.nodes parent t) :
    isRed (link t) h = some (decide (t.color = .red)) := by
  cases t with
  | nil => rfl
  | node c l x r =>
    rw [link, isRed, hspells.1]
    rfl

/-- A tree with a node has one at its root. -/
theorem exists_root (hlink : link t = some elm) : ∃ root, link (plug t above) = some root := by
  induction above generalizing t elm with
  | nil => exact ⟨elm, hlink⟩
  | cons f above ih => exact ih link_fill

theorem blackenRoot_spec (hat : At h t []) (hlink : link t = some elm) :
    ∃ h', blackenRoot h = some h' ∧ Reshapes h t h' t.blacken := by
  cases t with
  | nil => cases hlink
  | node c l x r =>
    obtain ⟨h', hmodify, hreshapes⟩ := At.setColor (d := .left) hat .black
    refine ⟨h', ?_, hreshapes⟩
    have hroot : h.root = some x.1 := hat.root
    simp only [blackenRoot, hroot, Option.bind_eq_bind, Option.bind_some]
    exact hmodify

/-- The write of a red root -/
theorem At.blacken (hat : At h t above) (hred : t.color = .red) :
    ∃ p h', link t = some p ∧ h.modify p (·.setColor .black) = some h' ∧
      Reshapes h (plug t above) h' (plug t.blacken above) := by
  cases t with
  | nil => cases hred
  | node c l x r =>
    obtain ⟨h', hmodify, hreshapes⟩ := At.setColor (d := .left) hat .black
    exact ⟨x.1, h', rfl, hmodify, hreshapes⟩

theorem rbSetBlackred_spec (hat : At h t (f :: g :: above)) :
    ∃ h', rbSetBlackred f.elem.1 g.elem.1 h = some h' ∧
      Reshapes h (plug t (f :: g :: above)) h'
        (plug (join g.side .red (join f.side .black t f.elem f.sibling) g.elem g.sibling) above) := by
  obtain ⟨h₁, hblack, hreshapes₁⟩ := (at_fill.mpr hat).setColor .black
  obtain ⟨h₂, hred, hreshapes₂⟩ := (at_fill.mpr hreshapes₁.at).setColor .red
  refine ⟨h₂, ?_, hreshapes₁.trans hreshapes₂⟩
  simp only [rbSetBlackred, hblack, Option.bind_eq_bind, Option.bind_some]
  exact hred

/-- The first rotation, where the node and its parent are on different sides -/
theorem alignElm_spec (hat : At h t (f :: g :: above)) (hlink : link t = some elm) :
    ∃ h' elm', alignElm g.side elm f.elem.1 h = some (h', (straighten g.side t f).2.elem.1, elm') ∧
      link (straighten g.side t f).1 = some elm' ∧
      Reshapes h (plug t (f :: g :: above)) h'
        (plug (straighten g.side t f).1 ((straighten g.side t f).2 :: g :: above)) := by
  have hup := at_fill.mpr hat
  obtain ⟨-, -, -, -, -, -, hapart, -⟩ := hup.apart
  have hnode := hup.node
  cases t with
  | nil => cases hlink
  | node c l x r =>
    cases hlink
    rcases Side.eq_or_eq_other f.side g.side with hside | hside
    · have hsibling : link f.sibling ≠ some x.1 := fun hsibling =>
        hapart _ (mem_addrs_of_link rfl) (mem_addrs_of_link hsibling)
      rw [straighten, if_pos hside, alignElm, hnode, ← hside]
      refine ⟨h, x.1, ?_, rfl, at_plug.mpr hat, rfl, fun _ _ => rfl⟩
      simp only [Option.bind_eq_bind, Option.bind_some, child_other_nodeOn, if_neg hsibling]
    · have hne : f.side ≠ g.side := fun heq => g.side.other_ne (hside.symm.trans heq)
      have hturn : At h (join g.side f.color f.sibling f.elem (join g.side c
          ((RBTree.node c l x r).child g.side) x ((RBTree.node c l x r).child g.side.other)))
            (g :: above) := by
        rw [Frame.fill, hside, join_other] at hup
        rwa [RBTree.join_child]
      obtain ⟨h', hrotate, hreshapes⟩ := hturn.rotate
      rw [RBTree.join_child, ← join_other (d := g.side), ← hside] at hreshapes
      rw [straighten, if_neg hne, alignElm, hnode, ← hside]
      refine ⟨h', f.elem.1, ?_, link_join, hreshapes⟩
      simp only [Option.bind_eq_bind, Option.bind_some, child_nodeOn, link, if_pos, hrotate]

/-! ## Turns -/

theorem insertColorOn_recolor (elm : Ptr) (hat : At h t (f :: g :: above))
    (hred : g.sibling.color = .red) :
    ∃ h', insertColorOn g.side elm f.elem.1 g.elem.1 h = some (h', g.elem.1) ∧
      Reshapes h (plug t (f :: g :: above)) h' (plug (recolor t f g) above) := by
  have hup := at_fill.mpr (at_fill.mpr hat)
  have hnode := hup.node
  have huncle := at_join_far.mp hup
  obtain ⟨p, h₁, hlink, hblack, hreshapes₁⟩ := huncle.blacken hred
  simp only [plug_cons, Frame.fill, join_other] at hreshapes₁
  have hback : At h₁ t (f :: ⟨g.side, g.color, g.elem, g.sibling.blacken⟩ :: above) :=
    at_join.mp (at_join.mp hreshapes₁.at)
  obtain ⟨h₂, hset, hreshapes₂⟩ := rbSetBlackred_spec hback
  have hisRed : isRed (some p) h = some true := by
    rw [← hlink, isRed_spec huncle.below, hred]
    rfl
  refine ⟨h₂, ?_, hreshapes₁.trans hreshapes₂⟩
  simp only [insertColorOn, hnode, Option.bind_eq_bind, Option.bind_some, child_other_nodeOn, hlink,
    hisRed, if_true, hblack, hset]

theorem insertColorOn_raise (hat : At h t (f :: g :: above)) (hlink : link t = some elm)
    (hred : t.color = .red) (hblack : g.sibling.color = .black) :
    ∃ h' elm', insertColorOn g.side elm f.elem.1 g.elem.1 h = some (h', elm') ∧
      link (straighten g.side t f).1 = some elm' ∧
      Reshapes h (plug t (f :: g :: above)) h'
        (plug (straighten g.side t f).1 (raise (straighten g.side t f).2 g :: above)) := by
  have hup := at_fill.mpr (at_fill.mpr hat)
  have hnode := hup.node
  have huncle := at_join_far.mp hup
  have hside := side_straighten (f := f) (d := g.side) hred
  obtain ⟨h₁, elm', halign, hlink', hreshapes₁⟩ := alignElm_spec hat hlink
  obtain ⟨h₂, hset, hreshapes₂⟩ := rbSetBlackred_spec hreshapes₁.at
  have hturn : At h₂ (join g.side.other .red g.sibling g.elem (join g.side.other .black
      (straighten g.side t f).2.sibling (straighten g.side t f).2.elem (straighten g.side t f).1))
        above := by
    have hat₂ := hreshapes₂.at
    rwa [hside, ← join_other (d := g.side) (c := .red), ← join_other (d := g.side) (c := .black)] at hat₂
  obtain ⟨h₃, hrotate, hreshapes₃⟩ := hturn.rotate
  refine ⟨h₃, elm', ?_, hlink', ?_⟩
  · simp only [insertColorOn, hnode, Option.bind_eq_bind, Option.bind_some, child_other_nodeOn,
      isRed_spec huncle.below, hblack, reduceCtorEq, decide_false, Bool.false_eq_true, if_false,
      halign, hset, hrotate]
  · have hreshapes := hreshapes₁.trans hreshapes₂
    rw [hside] at hreshapes
    simp only [join_other] at hreshapes₃
    exact hreshapes.trans hreshapes₃

/-- Under a red parent the branch is the one for the side of the parent. -/
theorem insertColorTurn_red (hat : At h t (f :: g :: above)) (hlink : link t = some elm)
    (hred : f.color = .red) :
    insertColorTurn (h, elm) = (insertColorOn g.side elm f.elem.1 g.elem.1 h).map .inl := by
  have hparent := at_fill.mpr hat
  have hgparent := at_fill.mpr hparent
  obtain ⟨-, -, -, -, -, -, hapart, -⟩ := hgparent.apart
  have hsibling : link g.sibling ≠ some f.elem.1 := fun hlink =>
    hapart _ (mem_addrs_of_link link_fill) (mem_addrs_of_link hlink)
  obtain ⟨node, hnode, hup⟩ : ∃ node, h.nodes elm = some node ∧ node.parent = some f.elem.1 :=
    hat.below.node_of_link hlink
  simp only [insertColorTurn, hnode, hup, hparent.node, Option.bind_eq_bind, Option.bind_some,
    color_nodeOn, hred, if_true, parent_nodeOn, parentOf_cons, hgparent.node, link_fill]
  rw [Option.map_eq_bind]
  cases g.side with
  | left => exact if_pos rfl
  | right => exact if_neg hsibling

/-- At the root or under a black parent the loop ends. -/
theorem insertColorTurn_last (hat : At h t above) (hlink : link t = some elm)
    (hlast : ∀ f rest, above = f :: rest → f.color = .black) :
    insertColorTurn (h, elm) = (blackenRoot h).map .inr := by
  obtain ⟨node, hnode, hup⟩ : ∃ node, h.nodes elm = some node ∧ node.parent = parentOf above :=
    hat.below.node_of_link hlink
  cases above with
  | nil =>
    have hup : node.parent = none := hup
    simp only [insertColorTurn, hnode, Option.bind_eq_bind, Option.bind_some, hup]
  | cons f above =>
    rw [parentOf_cons] at hup
    simp only [insertColorTurn, hnode, Option.bind_eq_bind, Option.bind_some, hup,
      (at_fill.mpr hat).node, color_nodeOn, hlast f above rfl, reduceCtorEq, if_false]

/-- A turn that goes on, on the links and on the tree -/
theorem insertColorTurn_inl {t' : RBTree (Ptr × α)} {above' : List (Frame (Ptr × α))} (hat : At h t above)
    (hlink : link t = some elm) (hred : t.color = .red)
    (hturn : fixTurn (t, above) = some (.inl (t', above'))) :
    ∃ h' elm', insertColorTurn (h, elm) = some (.inl (h', elm')) ∧ link t' = some elm' ∧
      Reshapes h (plug t above) h' (plug t' above') := by
  obtain ⟨f, g, rest, rfl, hf, hnext⟩ := fixTurn_inl hturn
  rw [insertColorTurn_red hat hlink hf]
  rcases hnext with ⟨hg, hnext⟩ | ⟨hg, hnext⟩
  · cases hnext
    obtain ⟨h', hrun, hreshapes⟩ := insertColorOn_recolor elm hat hg
    exact ⟨h', g.elem.1, by rw [hrun, Option.map_some], link_join, hreshapes⟩
  · cases hnext
    obtain ⟨h', elm', hrun, hlink', hreshapes⟩ := insertColorOn_raise hat hlink hred hg
    exact ⟨h', elm', by rw [hrun, Option.map_some], hlink', hreshapes⟩

/-- A last turn, on the links and on the tree -/
theorem insertColorTurn_inr {t' : RBTree (Ptr × α)} (hat : At h t above) (hlink : link t = some elm)
    (hturn : fixTurn (t, above) = some (.inr t')) :
    ∃ h', insertColorTurn (h, elm) = some (.inr h') ∧ Reshapes h (plug t above) h' t' := by
  obtain ⟨root, hroot⟩ : ∃ root, link (plug t above) = some root := exists_root hlink
  obtain ⟨h', hrun, hreshapes⟩ := blackenRoot_spec (at_plug.mpr hat) hroot
  obtain ⟨rfl, hlast⟩ := fixTurn_inr hturn
  exact ⟨h', by rw [insertColorTurn_last hat hlink hlast, hrun, Option.map_some], hreshapes⟩

/-! ## The loop -/

/-- The loop on the links takes the turns of the loop on the tree. -/
theorem rbInsertColor_loop {fuel : Nat} {t' : RBTree (Ptr × α)} (hat : At h t above)
    (hlink : link t = some elm) (hfixing : Fixing (t, above))
    (hloop : loop (fun _ => fixTurn) fuel (t, above) = some t') :
    ∃ h', rbInsertColor fuel elm h = some h' ∧ Reshapes h (plug t above) h' t' := by
  induction fuel generalizing h t above elm with
  | zero => cases hloop
  | succ fuel ih =>
    rcases loop_cases hloop with hturn | ⟨⟨t₁, above₁⟩, hturn, hrest⟩
    · obtain ⟨h', hrun, hreshapes⟩ := insertColorTurn_inr hat hlink hturn
      exact ⟨h', loop_inr hrun, hreshapes⟩
    · obtain ⟨h₁, elm₁, hrun, hlink₁, hreshapes₁⟩ := insertColorTurn_inl hat hlink hfixing.1 hturn
      obtain ⟨h', hrun', hreshapes⟩ := ih hreshapes₁.at hlink₁ (hfixing.turn hturn) hrest
      exact ⟨h', (loop_inl hrun).trans hrun', hreshapes₁.trans hreshapes⟩

/-- From a red node between parts that are balanced, the colors are fixed. -/
theorem rbInsertColor_spec {fuel : Nat} (hat : At h t above) (hlink : link t = some elm)
    (hfixing : Fixing (t, above)) (hfuel : above.length / 2 + 2 ≤ fuel) :
    ∃ h' t', rbInsertColor fuel elm h = some h' ∧ Reshapes h (plug t above) h' t' ∧
      t'.color = .black ∧ ∃ n, t'.Balanced n := by
  obtain ⟨t', hloop, -, hblack, hbalanced⟩ := fix hfixing
  have hloop := (steady_loop_turn fixTurn (t, above)).le hfuel hloop
  obtain ⟨h', hrun, hreshapes⟩ := rbInsertColor_loop hat hlink hfixing hloop
  exact ⟨h', t', hrun, hreshapes, hblack, hbalanced⟩

end

end Rbml.Tree
