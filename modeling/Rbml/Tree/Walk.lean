import Rbml.Asm.Walk
import Rbml.Tree.Insert

/-!
# `RB_FOREACH`

`RB_MINMAX` and `RB_NEXT` read the links of the nodes and nothing else; they are the functions of
`Storage`, on the links of the heap. The walk enters a subtree at its first node and leaves it to the
next node above (`nextAbove`), with each node visited once and in order on the way (`walk_tree`).
-/

namespace Rbml.Tree

open Rbml.Lib
open Rbml.Lib.RedBlack
open Rbml.Asm.Storage (Ptr SymbolNode rbMinmax rbNext IsTree leftmost descendTurn climbTurn)

variable {α β : Type}

/-- The links of the nodes -/
def Heap.links (h : Heap α) (p : Ptr) : Option SymbolNode :=
  (h.nodes p).map fun node => ⟨0, 0, node.left, node.right, node.parent, none⟩

/-- One turn of `RB_FOREACH` with a body that does not write the tree -/
def foreachTurn (visit : β → Ptr → Option β) (h : Heap α) (fuel : Nat) :
    Option Ptr × β → Option ((Option Ptr × β) ⊕ β)
  | (none, b) => some (.inr b)
  | (some p, b) => do
    let b ← visit b p
    let next ← rbNext h.links p fuel
    some (.inl (next, b))

/-- `RB_FOREACH` -/
def rbForeach (visit : β → Ptr → Option β) (h : Heap α) (b : β) (fuel : Nat) : Option β := do
  let s ← rbMinmax h.links h.root (-1) fuel
  loop (foreachTurn visit h) fuel (s, b)

/-- The tree of the addresses -/
def shape : RBTree (Ptr × α) → BinaryTree Ptr
  | .nil => .nil
  | .node _ l x r => .node x.1 (shape l) (shape r)

/-- The node that follows a subtree: the nearest one above that has it on its left -/
def nextAbove : List (Frame (Ptr × α)) → Option Ptr
  | [] => none
  | f :: above =>
    match f.side with
    | .left => some f.elem.1
    | .right => nextAbove above

section
variable {h : Heap α} {t l r : RBTree (Ptr × α)} {x : Ptr × α} {c : Color}
  {above : List (Frame (Ptr × α))} {parent : Option Ptr}

theorem isTree_links (hspells : Spells h.nodes parent t) :
    IsTree h.links (link t) parent (shape t) := by
  induction t generalizing parent with
  | nil => rfl
  | node c l x r ihl ihr =>
    obtain ⟨hnode, hl, hr⟩ := hspells
    exact ⟨rfl, _, by rw [Heap.links, hnode, Option.map_some], rfl, ihl hl, ihr hr⟩

/-! ## The successor -/

theorem links_of_node {p : Ptr} {node : Node α} (hnode : h.nodes p = some node) :
    h.links p = some ⟨0, 0, node.left, node.right, node.parent, none⟩ := by
  rw [Heap.links, hnode, Option.map_some]

/-- The climb from a subtree ends at the node that follows it. -/
theorem settles_climb {p : Ptr} {node : Node α} (hnode : h.nodes p = some node)
    (hparent : node.parent = parentOf above) (haround : SpellsAbove h.nodes (some p) above)
    (hp : p ∉ addrsAbove above) (hnodup : (addrsAbove above).Nodup) :
    Settles (fun fuel => loop (fun _ => climbTurn h.links) fuel p) (nextAbove above) := by
  induction above generalizing p node with
  | nil =>
    have hparent : node.parent = none := hparent
    refine settles_loop_inr (n := 0) ?_
    simp only [climbTurn, links_of_node hnode, Option.bind_eq_bind, Option.bind_some, hparent]
    rfl
  | cons f above ih =>
    obtain ⟨hf, -, habove⟩ := haround
    rw [parentOf_cons] at hparent
    have hsibling : link f.sibling ≠ some p := fun hlink =>
      hp (List.mem_cons_of_mem _ (List.mem_append_left _ (mem_addrs_of_link hlink)))
    have hf' := links_of_node hf
    obtain ⟨hfabove, hrest⟩ := List.nodup_cons.mp hnodup
    rw [List.mem_append, not_or] at hfabove
    cases hside : f.side with
    | left =>
      simp only [hside, nodeOn] at hf'
      refine settles_loop_inr (n := 0) ?_
      simp only [climbTurn, links_of_node hnode, Option.bind_eq_bind, Option.bind_some, hparent, hf',
        if_neg hsibling, nextAbove, hside]
    | right =>
      simp only [hside, nodeOn] at hf'
      have hturn : climbTurn h.links p = some (.inl f.elem.1) := by
        simp only [climbTurn, links_of_node hnode, Option.bind_eq_bind, Option.bind_some, hparent,
          hf', if_true]
      have hclimb := ih hf (parent_nodeOn ..) habove hfabove.2 (List.nodup_append.mp hrest).2.1
      simp only [nextAbove, hside]
      exact (settles_loop_turn hturn).mpr hclimb

/-- The node that follows is the first one on the right, or else the one that follows the subtree. -/
theorem settles_rbNext (hat : At h (.node c l x r) above) :
    Settles (rbNext h.links x.1) (leftmost (shape r) (nextAbove above)) := by
  obtain ⟨hnode, -, hr⟩ := hat.below
  obtain ⟨-, -, hxabove, -, -, hnodup, -, -⟩ := At.apart (d := .left) hat
  have hlinks := links_of_node hnode
  cases r with
  | nil =>
    have hclimb := settles_climb hnode rfl hat.around hxabove hnodup
    cases above with
    | nil => exact Asm.Storage.settles_rbNext_parent hlinks rfl fun q hq => by cases hq
    | cons f above =>
      obtain ⟨hf, -, -⟩ := hat.around
      have hsibling : link f.sibling ≠ some x.1 := fun hlink =>
        hxabove (List.mem_cons_of_mem _ (List.mem_append_left _ (mem_addrs_of_link hlink)))
      have hf' := links_of_node hf
      cases hside : f.side with
      | left =>
        simp only [hside, nodeOn, link] at hf'
        obtain hnext := Asm.Storage.settles_rbNext_parent hlinks rfl fun q hq => by
          cases hq
          exact ⟨_, hf', .inl rfl⟩
        simp only [nextAbove, hside]
        exact hnext
      | right =>
        obtain ⟨n, hn⟩ := hclimb
        refine ⟨n, ?_⟩
        simp only [hside, nodeOn] at hf'
        simp only [rbNext, hlinks, Option.bind_eq_bind, Option.bind_some, link_nil, parentOf_cons,
          Asm.Storage.isLeftChild, hf', hsibling, decide_false, Bool.false_eq_true, if_false]
        exact hn
  | node c' rl y rr => exact Asm.Storage.settles_rbNext_right hlinks (isTree_links hr)

/-! ## The walk -/

theorem steady_foreachTurn (visit : β → Ptr → Option β) (h : Heap α) (s : Option Ptr × β) :
    Steady fun fuel => foreachTurn visit h fuel s := by
  obtain ⟨s, b⟩ := s
  cases s with
  | none => exact steady_const _
  | some p =>
    exact (steady_const (visit b p)).bind fun _ =>
      (Asm.Storage.steady_rbNext h.links p).bind fun _ => steady_const _

/-- The loop goes over the nodes of a subtree in order and on to the node that follows it. -/
theorem walk_tree {visit : β → Ptr → Option β} {b b' result : β} (hat : At h t above)
    (hvisit : (addrs t).foldlM visit b = some b') :
    Settles (fun fuel => loop (foreachTurn visit h) fuel (leftmost (shape t) (nextAbove above), b))
        result ↔
      Settles (fun fuel => loop (foreachTurn visit h) fuel (nextAbove above, b')) result := by
  induction t generalizing above b b' with
  | nil =>
    cases hvisit
    exact Iff.rfl
  | node c l x r ihl ihr =>
    have hsplit : addrs (.node c l x r) = addrs l ++ x.1 :: addrs r := by
      simp only [addrs, RBTree.inorder, List.map_append, List.map_cons]
    rw [hsplit, List.foldlM_append] at hvisit
    obtain ⟨b₁, hl, hvisit⟩ := Option.bind_eq_some_iff.mp hvisit
    rw [List.foldlM_cons] at hvisit
    obtain ⟨b₂, hx, hr⟩ := Option.bind_eq_some_iff.mp hvisit
    have hatl : At h l (⟨.left, c, x, r⟩ :: above) := at_join.mp hat
    have hatr : At h r (⟨.right, c, x, l⟩ :: above) := (at_join_far (d := .left)).mp hat
    obtain ⟨k, hk⟩ := settles_rbNext hat
    have hturn : ∀ n, k ≤ n → foreachTurn visit h n (some x.1, b₁) =
        some (.inl (leftmost (shape r) (nextAbove above), b₂)) := by
      intro n hn
      have hnext := (Asm.Storage.steady_rbNext h.links x.1).le hn hk
      simp only [foreachTurn, hx, hnext, Option.bind_eq_bind, Option.bind_some]
    have hleft := ihl hatl hl
    have hright := ihr hatr hr
    exact hleft.trans ((settles_loop_inl (steady_foreachTurn visit h) hturn).trans hright)

/-- `RB_FOREACH` visits every node once and in order. -/
theorem settles_rbForeach {visit : β → Ptr → Option β} {b b' : β} (hat : At h t [])
    (hvisit : (addrs t).foldlM visit b = some b') : Settles (rbForeach visit h b) b' := by
  have htree := isTree_links hat.below
  have hfirst := Asm.Storage.settles_rbMinmax htree
  have hroot : h.root = link t := hat.root
  rw [← hroot] at hfirst
  have hend : Settles (fun fuel => loop (foreachTurn visit h) fuel (none, b')) b' :=
    settles_loop_inr (n := 0) rfl
  have hwalk := (walk_tree hat hvisit).mpr hend
  exact (Steady.settles_bind (steady_loop_turn _ _) (fun s => steady_loop (steady_foreachTurn visit h) (s, b))
    hfirst).mpr hwalk

end

end Rbml.Tree
