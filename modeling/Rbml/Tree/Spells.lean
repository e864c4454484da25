import Mathlib.Data.List.Nodup
import Rbml.Tree.Macros

/-!
# Trees in storage

The links, the colors and the parents of the nodes spell a tree (`Spells`) and the frames above it
(`SpellsAbove`). Its elements are the addresses of the nodes with the entries that they hold. A heap
that is taken apart at a node (`At`) has the nodes below and above it at distinct addresses, and the
same heap can be taken apart elsewhere: at the node above (`at_fill`) or at a child (`at_join`).

What is spelled depends on the nodes at its addresses only (`Spells.frame`). A subtree whose root is
given a new parent, and frames that are given another subtree, are spelled again (`Spells.adopted`,
`SpellsAbove.replaced`). A rotation does both.
-/

namespace Rbml.Tree

open Rbml.Lib.RedBlack
open Rbml.Lib.RedBlack.RBTree (join)
open Rbml.Asm.Storage (Ptr)

variable {α : Type}

/-! ## What a heap spells -/

/-- The address of the root -/
def link : RBTree (Ptr × α) → Option Ptr
  | .nil => none
  | .node _ _ x _ => some x.1

/-- The address of the node above -/
def parentOf (above : List (Frame (Ptr × α))) : Option Ptr := above.head?.map fun f => f.elem.1

/-- The addresses of the nodes of a tree, in order -/
def addrs (t : RBTree (Ptr × α)) : List Ptr := t.inorder.map Prod.fst

/-- The addresses of the nodes around a subtree -/
def addrsAbove : List (Frame (Ptr × α)) → List Ptr
  | [] => []
  | f :: above => f.elem.1 :: (addrs f.sibling ++ addrsAbove above)

/-- The node of an element with the child `near` on the side `d` -/
def nodeOn (d : Side) (c : Color) (near : Option Ptr) (entry : α) (far parent : Option Ptr) : Node α :=
  match d with
  | .left => ⟨entry, near, far, parent, c⟩
  | .right => ⟨entry, far, near, parent, c⟩

/-- The tree is in storage, below a parent. -/
def Spells (nodes : Ptr → Option (Node α)) : Option Ptr → RBTree (Ptr × α) → Prop
  | _, .nil => True
  | parent, .node c l x r => nodes x.1 = some ⟨x.2, link l, link r, parent, c⟩ ∧
      Spells nodes (some x.1) l ∧ Spells nodes (some x.1) r

/-- The frames are in storage, around the subtree with the root `hole`. -/
def SpellsAbove (nodes : Ptr → Option (Node α)) : Option Ptr → List (Frame (Ptr × α)) → Prop
  | _, [] => True
  | hole, f :: above =>
    nodes f.elem.1 = some (nodeOn f.side f.color hole f.elem.2 (link f.sibling) (parentOf above)) ∧
      Spells nodes (some f.elem.1) f.sibling ∧ SpellsAbove nodes (some f.elem.1) above

/-- The heap, taken apart at a subtree -/
structure At (h : Heap α) (t : RBTree (Ptr × α)) (above : List (Frame (Ptr × α))) : Prop where
  root : h.root = link (plug t above)
  below : Spells h.nodes (parentOf above) t
  around : SpellsAbove h.nodes (link t) above
  nodup : (addrs t ++ addrsAbove above).Nodup

/-- Another tree with the same elements in the same order is spelled, and no node outside of the tree is
touched. -/
structure Reshapes (h : Heap α) (t : RBTree (Ptr × α)) (h' : Heap α) (t' : RBTree (Ptr × α)) :
    Prop where
  spelled : At h' t' []
  inorder : t'.inorder = t.inorder
  frame : ∀ q, q ∉ addrs t → h'.nodes q = h.nodes q

/-! ## Reading -/

section
variable {d : Side} {c : Color} {near far entry : Option Ptr} {e : α} {parent p : Option Ptr}

@[simp] theorem entry_nodeOn : (nodeOn d c near e far parent).entry = e := by
  cases d <;> rfl

@[simp] theorem parent_nodeOn : (nodeOn d c near e far parent).parent = parent := by
  cases d <;> rfl

@[simp] theorem color_nodeOn : (nodeOn d c near e far parent).color = c := by
  cases d <;> rfl

@[simp] theorem child_nodeOn : (nodeOn d c near e far parent).child d = near := by
  cases d <;> rfl

@[simp] theorem child_other_nodeOn : (nodeOn d c near e far parent).child d.other = far := by
  cases d <;> rfl

@[simp] theorem setChild_nodeOn :
    (nodeOn d c near e far parent).setChild d p = nodeOn d c p e far parent := by
  cases d <;> rfl

@[simp] theorem setChild_other_nodeOn :
    (nodeOn d c near e far parent).setChild d.other p = nodeOn d c near e p parent := by
  cases d <;> rfl

@[simp] theorem setParent_nodeOn :
    (nodeOn d c near e far parent).setParent p = nodeOn d c near e far p := by
  cases d <;> rfl

theorem setColor_nodeOn (c' : Color) :
    (nodeOn d c near e far parent).setColor c' = nodeOn d c' near e far parent := by
  cases d <;> rfl

end

section
variable {h : Heap α} {p q : Ptr} {node : Node α} {f : Node α → Node α}

@[simp] theorem set_root : (h.set p node).root = h.root := rfl

@[simp] theorem set_nodes_self : (h.set p node).nodes p = some node := Function.update_self ..

theorem set_nodes_of_ne (hne : q ≠ p) : (h.set p node).nodes q = h.nodes q :=
  Function.update_of_ne hne ..

/-- A node that is there is changed in place. -/
theorem modify_of_node (hnode : h.nodes p = some node) : h.modify p f = some (h.set p (f node)) := by
  rw [Heap.modify, hnode, Option.map_some]

end

section
variable {nodes nodes' : Ptr → Option (Node α)} {parent : Option Ptr} {t near far : RBTree (Ptr × α)}
  {x : Ptr × α} {d : Side} {c : Color} {above : List (Frame (Ptr × α))} {f : Frame (Ptr × α)}

@[simp] theorem link_nil : link (.nil : RBTree (Ptr × α)) = none := rfl

/-- The root of a tree is its element, whatever the side. -/
@[simp] theorem link_join : link (join d c near x far) = some x.1 := by
  cases d <;> rfl

/-- The root of a subtree that is put back into its frame -/
@[simp] theorem link_fill : link (f.fill t) = some f.elem.1 := link_join

@[simp] theorem parentOf_cons : parentOf (f :: above) = some f.elem.1 := rfl

/-- A tree is in storage if its node is, and both subtrees are. -/
theorem spells_join : Spells nodes parent (join d c near x far) ↔
    nodes x.1 = some (nodeOn d c (link near) x.2 (link far) parent) ∧
      Spells nodes (some x.1) near ∧ Spells nodes (some x.1) far := by
  cases d with
  | left => exact Iff.rfl
  | right => exact and_congr_right fun _ => and_comm

/-- The addresses of a tree, without their order, for both sides at once -/
theorem addrs_join_perm :
    (addrs (join d c near x far)).Perm (x.1 :: (addrs near ++ addrs far)) := by
  simp only [addrs]
  cases d with
  | left =>
    simp only [join, RBTree.inorder, List.map_append, List.map_cons]
    exact List.perm_middle
  | right =>
    simp only [join, RBTree.inorder, List.map_append, List.map_cons]
    exact List.perm_middle.trans (List.perm_append_comm.cons x.1)

/-- An address of a tree is that of its root, or of one of the subtrees. -/
theorem mem_addrs_join {q : Ptr} :
    q ∈ addrs (join d c near x far) ↔ q = x.1 ∨ q ∈ addrs near ∨ q ∈ addrs far := by
  rw [addrs_join_perm.mem_iff]
  simp only [List.mem_cons, List.mem_append]

/-- The root is one of the nodes. -/
theorem mem_addrs_of_link {q : Ptr} (h : link t = some q) : q ∈ addrs t := by
  cases t with
  | nil => cases h
  | node c l x r =>
    cases h
    simp [addrs, RBTree.inorder]

/-- The node above is one of those around. -/
theorem mem_addrsAbove_of_parentOf {q : Ptr} (h : parentOf above = some q) : q ∈ addrsAbove above := by
  cases above with
  | nil => cases h
  | cons f above =>
    cases h
    exact List.mem_cons_self

/-- The nodes of the whole tree are those of the subtree and those around it. -/
theorem addrs_plug_perm : (addrs (plug t above)).Perm (addrs t ++ addrsAbove above) := by
  induction above generalizing t with
  | nil => simp only [plug_nil, addrsAbove, List.append_nil, List.Perm.refl]
  | cons f above ih =>
    refine ih.trans ((addrs_join_perm.append_right _).trans ?_)
    simp only [addrsAbove, List.cons_append, List.append_assoc]
    exact List.perm_middle.symm

/-- An address of the whole tree is in the subtree or around it. -/
theorem mem_addrs_plug {q : Ptr} :
    q ∈ addrs (plug t above) ↔ q ∈ addrs t ∨ q ∈ addrsAbove above := by
  rw [addrs_plug_perm.mem_iff, List.mem_append]

/-- The root of the whole tree is above the subtree, if anything is. -/
theorem link_plug_cons (s : RBTree (Ptr × α)) :
    link (plug t (f :: above)) = link (plug s (f :: above)) := by
  induction above generalizing f t s with
  | nil => simp only [plug_cons, plug_nil, link_fill]
  | cons g above ih =>
    rw [plug_cons, plug_cons]
    exact ih (f.fill s)

/-! ## What a heap spells is in the nodes of the tree -/

/-- A tree stays in storage where none of its nodes is written. -/
theorem Spells.frame (h : Spells nodes parent t) (heq : ∀ q ∈ addrs t, nodes' q = nodes q) :
    Spells nodes' parent t := by
  induction t generalizing parent with
  | nil => trivial
  | node c l x r ihl ihr =>
    obtain ⟨hnode, hl, hr⟩ := h
    have hmem : ∀ q, q ∈ addrs (.node c l x r) ↔ q = x.1 ∨ q ∈ addrs l ∨ q ∈ addrs r :=
      fun q => mem_addrs_join (d := .left)
    refine ⟨(heq _ ((hmem _).mpr (.inl rfl))).trans hnode, ihl hl fun q hq => ?_,
      ihr hr fun q hq => ?_⟩
    · exact heq q ((hmem q).mpr (.inr (.inl hq)))
    · exact heq q ((hmem q).mpr (.inr (.inr hq)))

/-- The frames stay in storage where none of their nodes is written. -/
theorem SpellsAbove.frame {hole : Option Ptr} (h : SpellsAbove nodes hole above)
    (heq : ∀ q ∈ addrsAbove above, nodes' q = nodes q) : SpellsAbove nodes' hole above := by
  induction above generalizing hole with
  | nil => trivial
  | cons f above ih =>
    obtain ⟨hnode, hsibling, habove⟩ := h
    simp only [addrsAbove, List.mem_cons, List.mem_append] at heq
    exact ⟨(heq _ (.inl rfl)).trans hnode, hsibling.frame fun q hq => heq q (.inr (.inl hq)),
      ih habove fun q hq => heq q (.inr (.inr hq))⟩

/-- The node of the root knows the parent. -/
theorem Spells.node_of_link {q : Ptr} (h : Spells nodes parent t) (hlink : link t = some q) :
    ∃ node, nodes q = some node ∧ node.parent = parent := by
  cases t with
  | nil => cases hlink
  | node c l x r =>
    cases hlink
    exact ⟨_, h.1, rfl⟩

/-- A subtree below another parent, which only its root is told -/
theorem Spells.adopted {parent' : Option Ptr} (h : Spells nodes parent t) (hnodup : (addrs t).Nodup)
    (hroot : ∀ q node, link t = some q → nodes q = some node →
      nodes' q = some (node.setParent parent'))
    (heq : ∀ q ∈ addrs t, link t ≠ some q → nodes' q = nodes q) : Spells nodes' parent' t := by
  cases t with
  | nil => trivial
  | node c l x r =>
    obtain ⟨hnode, hl, hr⟩ := h
    have hdistinct := (addrs_join_perm (d := .left) (c := c)).nodup_iff.mp hnodup
    obtain ⟨hx, -⟩ := List.nodup_cons.mp hdistinct
    have hrest : ∀ q, q ∈ addrs l ++ addrs r → nodes' q = nodes q := by
      intro q hq
      refine heq q ?_ fun hlink => ?_
      · exact (addrs_join_perm (d := .left)).mem_iff.mpr (List.mem_cons_of_mem _ hq)
      · cases hlink
        exact hx hq
    exact ⟨hroot _ _ rfl hnode, hl.frame fun q hq => hrest q (List.mem_append_left _ hq),
      hr.frame fun q hq => hrest q (List.mem_append_right _ hq)⟩

/-- Frames around another subtree, which only the node above it is told -/
theorem SpellsAbove.replaced {hole hole' : Option Ptr} (h : SpellsAbove nodes hole (f :: above))
    (hnodup : (addrsAbove (f :: above)).Nodup)
    (hparent : nodes' f.elem.1 =
      some (nodeOn f.side f.color hole' f.elem.2 (link f.sibling) (parentOf above)))
    (heq : ∀ q ∈ addrsAbove (f :: above), q ≠ f.elem.1 → nodes' q = nodes q) :
    SpellsAbove nodes' hole' (f :: above) := by
  obtain ⟨-, hsibling, habove⟩ := h
  obtain ⟨hf, -⟩ := List.nodup_cons.mp hnodup
  have hrest : ∀ q, q ∈ addrs f.sibling ++ addrsAbove above → nodes' q = nodes q := by
    intro q hq
    refine heq q (List.mem_cons_of_mem _ hq) fun hne => ?_
    exact hf (hne ▸ hq)
  exact ⟨hparent, hsibling.frame fun q hq => hrest q (List.mem_append_left _ hq),
    habove.frame fun q hq => hrest q (List.mem_append_right _ hq)⟩

end

/-! ## Moves -/

section
variable {h : Heap α} {t near far : RBTree (Ptr × α)} {x : Ptr × α} {d : Side} {c : Color}
  {above : List (Frame (Ptr × α))} {f : Frame (Ptr × α)}

/-- A move to the near child takes one frame more. -/
theorem at_join : At h (join d c near x far) above ↔ At h near (⟨d, c, x, far⟩ :: above) := by
  have hperm : (addrs (join d c near x far) ++ addrsAbove above).Perm
      (addrs near ++ addrsAbove (⟨d, c, x, far⟩ :: above)) := by
    refine (addrs_join_perm.append_right _).trans ?_
    simp only [addrsAbove, List.cons_append, List.append_assoc]
    exact List.perm_middle.symm
  refine ⟨fun ⟨hroot, hbelow, habove, hnodup⟩ => ?_, fun ⟨hroot, hbelow, habove, hnodup⟩ => ?_⟩
  · obtain ⟨hnode, hnear, hfar⟩ := spells_join.mp hbelow
    rw [link_join] at habove
    exact ⟨hroot, hnear, ⟨hnode, hfar, habove⟩, hperm.nodup_iff.mp hnodup⟩
  · obtain ⟨hnode, hfar, habove⟩ := habove
    refine ⟨hroot, spells_join.mpr ⟨hnode, hbelow, hfar⟩, ?_, hperm.nodup_iff.mpr hnodup⟩
    rw [link_join]
    exact habove

/-- A move to the parent takes one frame less. -/
theorem at_fill : At h (f.fill t) above ↔ At h t (f :: above) := at_join

/-- The heap that spells the whole tree can be taken apart at any subtree of it. -/
theorem at_plug : At h (plug t above) [] ↔ At h t above := by
  induction above generalizing t with
  | nil => exact Iff.rfl
  | cons f above ih => exact ih.trans at_fill

/-- On the other side, near and far are exchanged. -/
theorem join_other : join d.other c near x far = join d c far x near := by
  cases d <;> rfl

/-- A move to the child on the other side -/
theorem at_join_far :
    At h (join d c near x far) above ↔ At h far (⟨d.other, c, x, near⟩ :: above) := by
  rw [← at_join, join_other]

/-- Two changes of the shape, one after the other -/
theorem Reshapes.trans {h₁ h₂ h₃ : Heap α} {t₁ t₂ t₃ : RBTree (Ptr × α)}
    (h₁₂ : Reshapes h₁ t₁ h₂ t₂) (h₂₃ : Reshapes h₂ t₂ h₃ t₃) : Reshapes h₁ t₁ h₃ t₃ := by
  refine ⟨h₂₃.spelled, h₂₃.inorder.trans h₁₂.inorder, fun q hq => ?_⟩
  have hsame : addrs t₂ = addrs t₁ := by rw [addrs, addrs, h₁₂.inorder]
  exact (h₂₃.frame q (hsame ▸ hq)).trans (h₁₂.frame q hq)

/-- The reshaped heap, taken apart at the same place -/
theorem Reshapes.at {h' : Heap α} {s t' : RBTree (Ptr × α)} (hreshapes : Reshapes h s h' (plug t' above)) :
    At h' t' above :=
  at_plug.mp hreshapes.spelled

/-- The node of the subtree at which the heap is taken apart -/
theorem At.node (hat : At h (join d c near x far) above) :
    h.nodes x.1 = some (nodeOn d c (link near) x.2 (link far) (parentOf above)) :=
  (spells_join.mp hat.below).1

end

end Rbml.Tree
