import Mathlib.Algebra.Order.Ring.Nat
import Mathlib.Data.Nat.Log
import Mathlib.Order.Lattice
import Rbml.Lib.Loop
import Rbml.Lib.Table

/-!
# Red-black trees, taken apart at a node

An insertion with parent links goes down from the root and then up again from the new leaf. Both
loops are at one node at a time. The tree is taken apart there: the subtree at the node, and the
frames above it, the nearest first, each with the side that the way down took and the other subtree
(`Frame`). `plug` puts the tree together.

The way down stops at the place of a key (`seek`). On the way up a red node with a red parent is
handed to the grandparent, or two rotations at most end the loop (`fixTurn`). A turn does not change
the walk of the tree, and what it keeps of the colors is that the part below and the part above are
balanced on their own (`Balanced`, `BalancedAbove`): only the colors of the two nodes where they meet
may be wrong. So the loop ends in a balanced tree (`fix`), after at most one turn for two frames.

A balanced tree with a black root is at most twice as high as the logarithm of its size
(`height_le_log`).
-/

namespace Rbml.Lib.RedBlack

variable {α κ : Type*}

/-- The color of a node -/
inductive Color where
  | black | red
  deriving DecidableEq, Repr

/-- A child of a node, by its side -/
inductive Side where
  | left | right
  deriving DecidableEq, Repr

/-- The other side -/
def Side.other : Side → Side
  | .left => .right
  | .right => .left

@[simp] theorem Side.other_other (d : Side) : d.other.other = d := by
  cases d <;> rfl

theorem Side.eq_or_eq_other (d e : Side) : d = e ∨ d = e.other := by
  cases d <;> cases e <;> simp [Side.other]

theorem Side.other_ne (d : Side) : d.other ≠ d := by
  cases d <;> exact Side.noConfusion

/-- A binary tree with a color in each node. Nothing is promised of the colors or of the order. -/
inductive RBTree (α : Type*) where
  | nil
  | node (c : Color) (l : RBTree α) (x : α) (r : RBTree α)

namespace RBTree

/-- An empty tree counts as black. -/
def color : RBTree α → Color
  | nil => .black
  | node c _ _ _ => c

/-- The tree with a black root -/
def blacken : RBTree α → RBTree α
  | nil => nil
  | node _ l x r => node .black l x r

/-- The subtree on a side -/
def child (d : Side) : RBTree α → RBTree α
  | nil => nil
  | node _ l _ r =>
    match d with
    | .left => l
    | .right => r

/-- A node with the subtree `near` on the side `d` -/
def join (d : Side) (c : Color) (near : RBTree α) (x : α) (far : RBTree α) : RBTree α :=
  match d with
  | .left => node c near x far
  | .right => node c far x near

/-- The elements in order -/
def inorder : RBTree α → List α
  | nil => []
  | node _ l x r => inorder l ++ x :: inorder r

/-- Another element in the place of each one -/
def map (f : α → α) : RBTree α → RBTree α
  | nil => nil
  | node c l x r => node c (l.map f) (f x) (r.map f)

/-- The number of nodes on the longest way down -/
def height : RBTree α → Nat
  | nil => 0
  | node _ l _ r => max l.height r.height + 1

/-- The children of a red node are black, and each way down passes `n` black nodes. -/
def Balanced : RBTree α → Nat → Prop
  | nil, n => n = 0
  | node .red l _ r, n => l.color = .black ∧ r.color = .black ∧ l.Balanced n ∧ r.Balanced n
  | node .black l _ r, n => ∃ m, n = m + 1 ∧ l.Balanced m ∧ r.Balanced m

@[simp] theorem color_node (c : Color) (l : RBTree α) (x : α) (r : RBTree α) :
    (node c l x r).color = c := rfl

@[simp] theorem color_join (d : Side) (c : Color) (near : RBTree α) (x : α) (far : RBTree α) :
    (join d c near x far).color = c := by
  cases d <;> rfl

@[simp] theorem blacken_join (d : Side) (c : Color) (near : RBTree α) (x : α) (far : RBTree α) :
    (join d c near x far).blacken = join d .black near x far := by
  cases d <;> rfl

@[simp] theorem inorder_blacken (t : RBTree α) : t.blacken.inorder = t.inorder := by
  cases t <;> rfl

/-- A red node has black children, and does not count. -/
@[simp] theorem balanced_join_red {d : Side} {near far : RBTree α} {x : α} {n : Nat} :
    (join d .red near x far).Balanced n ↔
      near.color = .black ∧ far.color = .black ∧ near.Balanced n ∧ far.Balanced n := by
  cases d with
  | left => exact Iff.rfl
  | right =>
    show far.color = .black ∧ near.color = .black ∧ far.Balanced n ∧ near.Balanced n ↔ _
    tauto

/-- A black node counts one. -/
@[simp] theorem balanced_join_black {d : Side} {near far : RBTree α} {x : α} {n : Nat} :
    (join d .black near x far).Balanced (n + 1) ↔ near.Balanced n ∧ far.Balanced n := by
  have hnode : ∀ l r : RBTree α, (node .black l x r).Balanced (n + 1) ↔ l.Balanced n ∧ r.Balanced n := by
    intro l r
    refine ⟨fun ⟨m, hm, hl, hr⟩ => ?_, fun h => ⟨n, rfl, h⟩⟩
    cases hm
    exact ⟨hl, hr⟩
  cases d with
  | left => exact hnode near far
  | right => exact (hnode far near).trans and_comm

/-- A tree is joined again from its children, in whatever order they are named. -/
theorem join_child (d : Side) (c : Color) (l : RBTree α) (x : α) (r : RBTree α) :
    join d c ((node c l x r).child d) x ((node c l x r).child d.other) = node c l x r := by
  cases d <;> rfl

@[simp] theorem color_map (f : α → α) (t : RBTree α) : (t.map f).color = t.color := by
  cases t <;> rfl

@[simp] theorem inorder_map (f : α → α) (t : RBTree α) : (t.map f).inorder = t.inorder.map f := by
  induction t with
  | nil => rfl
  | node c l x r ihl ihr => simp only [map, inorder, ihl, ihr, List.map_append, List.map_cons]

theorem balanced_map {f : α → α} {t : RBTree α} {n : Nat} (h : t.Balanced n) : (t.map f).Balanced n := by
  induction t generalizing n with
  | nil => exact h
  | node c l x r ihl ihr =>
    cases c with
    | red =>
      obtain ⟨hcl, hcr, hl, hr⟩ := h
      exact ⟨(color_map f l).trans hcl, (color_map f r).trans hcr, ihl hl, ihr hr⟩
    | black =>
      obtain ⟨m, hm, hl, hr⟩ := h
      exact ⟨m, hm, ihl hl, ihr hr⟩

/-- A rotation keeps the order. -/
theorem inorder_rotate (d : Side) (c c' : Color) (near : RBTree α) (x : α) (mid : RBTree α) (y : α)
    (far : RBTree α) :
    (join d c' (join d c near x mid) y far).inorder =
      (join d c near x (join d c' mid y far)).inorder := by
  cases d <;> simp [join, inorder]

/-- A red root that becomes black counts one more. -/
theorem balanced_blacken {t : RBTree α} {n : Nat} (h : t.Balanced n) (hred : t.color = .red) :
    t.blacken.Balanced (n + 1) := by
  cases t with
  | nil => cases hred
  | node c l x r =>
    cases hred
    exact ⟨n, rfl, h.2.2⟩

/-! ## How high a tree is -/

/-- A balanced tree has at least as many nodes as its black ones alone. -/
theorem two_pow_le_size {t : RBTree α} {n : Nat} (h : t.Balanced n) :
    2 ^ n ≤ t.inorder.length + 1 := by
  induction t generalizing n with
  | nil =>
    cases h
    exact Nat.le_refl 1
  | node c l x r ihl ihr =>
    simp only [inorder, List.length_append, List.length_cons]
    cases c with
    | red =>
      obtain ⟨-, -, hl, -⟩ := h
      have hle := ihl hl
      omega
    | black =>
      obtain ⟨m, rfl, hl, hr⟩ := h
      have hlel := ihl hl
      have hler := ihr hr
      rw [Nat.pow_succ]
      omega

/-- A way down passes at most one red node after each black one, and one more at a red root. -/
theorem height_le {t : RBTree α} {n : Nat} (h : t.Balanced n) :
    t.height ≤ 2 * n + if t.color = .red then 1 else 0 := by
  induction t generalizing n with
  | nil => exact Nat.zero_le _
  | node c l x r ihl ihr =>
    have hchild : ∀ t : RBTree α, (if t.color = .red then 1 else 0) ≤ 1 := by
      intro t
      split <;> omega
    cases c with
    | red =>
      obtain ⟨hcl, hcr, hl, hr⟩ := h
      have hlel := ihl hl
      have hler := ihr hr
      simp only [hcl, hcr, height, color_node, reduceCtorEq, if_false, if_true] at hlel hler ⊢
      omega
    | black =>
      obtain ⟨m, rfl, hl, hr⟩ := h
      have hlel := ihl hl
      have hler := ihr hr
      have hcl := hchild l
      have hcr := hchild r
      simp only [height, color_node, reduceCtorEq, if_false]
      omega

/-- The height is at most twice the logarithm of the size, since at most every other node is red. -/
theorem height_le_log {t : RBTree α} {n : Nat} (h : t.Balanced n) (hblack : t.color = .black) :
    t.height ≤ 2 * Nat.log 2 (t.inorder.length + 1) := by
  have hheight := height_le h
  have hlog : n ≤ Nat.log 2 (t.inorder.length + 1) :=
    Nat.le_log_of_pow_le Nat.one_lt_two (two_pow_le_size h)
  simp only [hblack, reduceCtorEq, if_false] at hheight
  omega

end RBTree

open Rbml.Lib.RedBlack.RBTree

/-! ## Frames -/

/-- A node without one of its subtrees, the one on the given side -/
structure Frame (α : Type*) where
  side : Side
  color : Color
  elem : α
  sibling : RBTree α

/-- The tree that a frame was around -/
def Frame.fill (f : Frame α) (t : RBTree α) : RBTree α := join f.side f.color t f.elem f.sibling

/-- The tree with a subtree in its place -/
def plug (t : RBTree α) (above : List (Frame α)) : RBTree α := above.foldl (fun t f => f.fill t) t

@[simp] theorem plug_nil (t : RBTree α) : plug t [] = t := rfl

@[simp] theorem plug_cons (t : RBTree α) (f : Frame α) (above : List (Frame α)) :
    plug t (f :: above) = plug (f.fill t) above := rfl

/-- The elements before the place of the subtree -/
def before : List (Frame α) → List α
  | [] => []
  | f :: above =>
    match f.side with
    | .left => before above
    | .right => before above ++ f.sibling.inorder ++ [f.elem]

/-- The elements after the place of the subtree -/
def after : List (Frame α) → List α
  | [] => []
  | f :: above =>
    match f.side with
    | .left => f.elem :: f.sibling.inorder ++ after above
    | .right => after above

/-- The elements of the whole tree: those before the subtree, its own, and those after it -/
theorem inorder_plug (t : RBTree α) (above : List (Frame α)) :
    (plug t above).inorder = before above ++ t.inorder ++ after above := by
  induction above generalizing t with
  | nil => simp [before, after]
  | cons f above ih =>
    obtain ⟨side, c, x, sibling⟩ := f
    rw [plug_cons, ih]
    cases side <;> simp [before, after, Frame.fill, join, inorder]

/-- The color of the node above. The place of the root counts as red, since the root is to be black. -/
def colorAbove : List (Frame α) → Color
  | [] => .red
  | f :: _ => f.color

/-- The frames are balanced around a black subtree with `n` black nodes on each way down. -/
def BalancedAbove : List (Frame α) → Nat → Prop
  | [], _ => True
  | f :: above, n => f.sibling.Balanced n ∧
    match f.color with
    | .red => f.sibling.color = .black ∧ colorAbove above = .black ∧ BalancedAbove above n
    | .black => BalancedAbove above (n + 1)

/-- The subtree does not go wrong with the node above it. -/
theorem balanced_plug {t : RBTree α} {above : List (Frame α)} {n : Nat} (ht : t.Balanced n)
    (habove : BalancedAbove above n) (hmeet : t.color = .red → colorAbove above = .black) :
    (plug t above).color = .black ∧ ∃ m, (plug t above).Balanced m := by
  induction above generalizing t n with
  | nil =>
    cases hcolor : t.color with
    | black => exact ⟨hcolor, n, ht⟩
    | red => cases hmeet hcolor
  | cons f above ih =>
    obtain ⟨side, c, x, sibling⟩ := f
    obtain ⟨hsibling, hrest⟩ := habove
    cases c with
    | red =>
      obtain ⟨hblack, hcolor, hrest⟩ := hrest
      have ht' : t.color = .black := by
        cases hcolor' : t.color with
        | black => rfl
        | red => cases hmeet hcolor'
      exact ih (balanced_join_red.mpr ⟨ht', hblack, ht, hsibling⟩) hrest fun _ => hcolor
    | black =>
      refine ih (balanced_join_black.mpr ⟨ht, hsibling⟩) hrest fun hred => ?_
      cases (color_join side .black t x sibling).symm.trans hred

/-! ## The way down -/

/-- The element at the root -/
def RBTree.elem? : RBTree α → Option α
  | .nil => none
  | .node _ _ x _ => some x

section
variable [LinearOrder κ] (key : α → κ) (k : κ)

/-- From a subtree down to the place of `k`, which is empty where no element has the key -/
def seek : RBTree α → List (Frame α) → RBTree α × List (Frame α)
  | .nil, above => (.nil, above)
  | .node c l x r, above =>
    if k < key x then seek l (⟨.left, c, x, r⟩ :: above)
    else if key x < k then seek r (⟨.right, c, x, l⟩ :: above)
    else (.node c l x r, above)

/-- On the way down nothing is lost. -/
theorem plug_seek (t : RBTree α) (above : List (Frame α)) :
    plug (seek key k t above).1 (seek key k t above).2 = plug t above := by
  induction t generalizing above with
  | nil => rfl
  | node c l x r ihl ihr =>
    simp only [seek]
    split
    · exact ihl _
    · split
      · exact ihr _
      · rfl

/-- The way down is not longer than the tree is high. -/
theorem length_seek_le (t : RBTree α) (above : List (Frame α)) :
    (seek key k t above).2.length ≤ above.length + t.height := by
  induction t generalizing above with
  | nil => exact Nat.le_refl _
  | node c l x r ihl ihr =>
    simp only [seek, RBTree.height]
    split
    · have hle := ihl (⟨.left, c, x, r⟩ :: above)
      rw [List.length_cons] at hle
      omega
    · split
      · have hle := ihr (⟨.right, c, x, l⟩ :: above)
        rw [List.length_cons] at hle
        omega
      · exact Nat.le_add_right _ _

/-- In an ordered tree, the way down ends at the element with the key, if there is one. -/
theorem seek_elem?_eq_find? {t : RBTree α} (h : t.inorder.Pairwise fun a b => key a < key b)
    (above : List (Frame α)) :
    (seek key k t above).1.elem? = t.inorder.find? fun a => key a == k := by
  induction t generalizing above with
  | nil => rfl
  | node c l x r ihl ihr =>
    obtain ⟨hl, hxr, hapart⟩ := List.pairwise_append.mp h
    obtain ⟨hx, hr⟩ := List.pairwise_cons.mp hxr
    -- no key on the far side of `x` is the key looked for
    have hnone : ∀ as : List α, (∀ a ∈ as, key a ≠ k) → as.find? (fun a => key a == k) = none := by
      intro as has
      refine List.find?_eq_none.mpr fun a ha => ?_
      rw [beq_iff_eq]
      exact has a ha
    simp only [seek, RBTree.inorder, List.find?_append]
    split
    next hlt =>
      rw [ihl hl, hnone (x :: r.inorder), Option.or_none]
      intro a ha
      rcases List.mem_cons.mp ha with rfl | ha
      · exact hlt.ne'
      · exact (hlt.trans (hx a ha)).ne'
    next hnlt =>
      split
      next hgt =>
        rw [ihr hr, hnone l.inorder, Option.none_or, List.find?_cons_of_neg]
        · rw [beq_iff_eq]
          exact hgt.ne
        · intro a ha
          exact ((hapart a ha x List.mem_cons_self).trans hgt).ne
      next hngt =>
        have hkey : key x = k := le_antisymm (not_lt.mp hnlt) (not_lt.mp hngt)
        rw [hnone l.inorder, Option.none_or, List.find?_cons_of_pos (by rw [beq_iff_eq, hkey])]
        · rfl
        · intro a ha
          exact hkey ▸ (hapart a ha x List.mem_cons_self).ne

/-- An element put at the empty place of its key is where an insertion into the walk puts it. -/
theorem insertEntry_of_seek {t : RBTree α} (h : t.inorder.Pairwise fun a b => key a < key b) {a : α}
    {above : List (Frame α)} (hplace : (seek key (key a) t above).1 = .nil) :
    before (seek key (key a) t above).2 ++ a :: after (seek key (key a) t above).2 =
      before above ++ Table.insertEntry key a t.inorder ++ after above := by
  induction t generalizing above with
  | nil => simp only [seek, RBTree.inorder, Table.insertEntry, List.append_assoc, List.cons_append,
      List.nil_append]
  | node c l x r ihl ihr =>
    obtain ⟨hl, hxr, hapart⟩ := List.pairwise_append.mp h
    obtain ⟨-, hr⟩ := List.pairwise_cons.mp hxr
    simp only [seek, RBTree.inorder] at hplace ⊢
    split at hplace
    next hlt =>
      rw [if_pos hlt, ihl hl hplace, Table.insertEntry_append_of_lt hlt]
      simp only [before, after, List.append_assoc, List.cons_append]
    next hnlt =>
      split at hplace
      next hgt =>
        have hpass : ∀ b ∈ l.inorder ++ [x], key b < key a := by
          intro b hb
          rcases List.mem_append.mp hb with hb | hb
          · exact (hapart b hb x List.mem_cons_self).trans hgt
          · rwa [List.mem_singleton.mp hb]
        have hinsert := Table.insertEntry_append_of_gt hpass r.inorder
        rw [List.append_assoc, List.singleton_append] at hinsert
        rw [if_neg hnlt, if_pos hgt, ihr hr hplace, hinsert]
        simp only [before, after, List.append_assoc]
      next => cases hplace

/-- The part that is left of a balanced tree is balanced, and so is the part above it. -/
theorem balanced_seek {t : RBTree α} {above : List (Frame α)} {n : Nat} (ht : t.Balanced n)
    (habove : BalancedAbove above n) (hmeet : t.color = .red → colorAbove above = .black) :
    ∃ m, (seek key k t above).1.Balanced m ∧ BalancedAbove (seek key k t above).2 m := by
  induction t generalizing above n with
  | nil => exact ⟨n, ht, habove⟩
  | node c l x r ihl ihr =>
    have hdown : ∃ m, l.Balanced m ∧ r.Balanced m ∧
        BalancedAbove (⟨.left, c, x, r⟩ :: above) m ∧
        BalancedAbove (⟨.right, c, x, l⟩ :: above) m ∧
        (l.color = .red → c = .black) ∧ (r.color = .red → c = .black) := by
      cases c with
      | red =>
        obtain ⟨hcl, hcr, hl, hr⟩ := ht
        have hup := hmeet rfl
        refine ⟨n, hl, hr, ⟨hr, hcr, hup, habove⟩, ⟨hl, hcl, hup, habove⟩, fun h => ?_, fun h => ?_⟩
        · rw [hcl] at h
          cases h
        · rw [hcr] at h
          cases h
      | black =>
        obtain ⟨m, rfl, hl, hr⟩ := ht
        exact ⟨m, hl, hr, ⟨hr, habove⟩, ⟨hl, habove⟩, fun _ => rfl, fun _ => rfl⟩
    obtain ⟨m, hl, hr, hleft, hright, hmeetl, hmeetr⟩ := hdown
    simp only [seek]
    split
    · exact ihl hl hleft hmeetl
    · split
      · exact ihr hr hright hmeetr
      · exact ⟨n, ht, habove⟩

end

/-! ## The way up -/

/-- A red node with a red sibling and their parent, with the colors turned over -/
def recolor (t : RBTree α) (f g : Frame α) : RBTree α :=
  join g.side .red (join f.side .black t f.elem f.sibling) g.elem g.sibling.blacken

/-- Turn the subtree and the node above it, where they are on different sides, so that the node goes
below the root of the subtree on the side `d`. -/
def straighten (d : Side) (t : RBTree α) (f : Frame α) : RBTree α × Frame α :=
  match t with
  | .nil => (t, f)
  | .node c l x r =>
    if f.side = d then (t, f)
    else
      (join d f.color f.sibling f.elem ((RBTree.node c l x r).child d),
        ⟨d, c, x, (RBTree.node c l x r).child d.other⟩)

/-- Turn a node and its parent: the parent goes below it on the other side and gets its color. -/
def raise (f g : Frame α) : Frame α :=
  ⟨g.side, .black, f.elem, join g.side .red f.sibling g.elem g.sibling⟩

/-- One turn of fixing the colors, at a red subtree. A red parent has a parent of its own. -/
def fixTurn : RBTree α × List (Frame α) → Option ((RBTree α × List (Frame α)) ⊕ RBTree α)
  | (t, []) => some (.inr t.blacken)
  | (t, f :: above) =>
    match f.color, above with
    | .black, _ => some (.inr (plug t (f :: above)).blacken)
    | .red, [] => none
    | .red, g :: above =>
      if g.sibling.color = .red then some (.inl (recolor t f g, above))
      else some (.inl ((straighten g.side t f).1, raise (straighten g.side t f).2 g :: above))

section
variable {t : RBTree α} {f g : Frame α} {above : List (Frame α)} {d : Side} {n : Nat}

/-- A black parent ends the way up. -/
theorem fixTurn_black (hf : f.color = .black) :
    fixTurn (t, f :: above) = some (.inr (plug t (f :: above)).blacken) := by
  simp only [fixTurn, hf]

/-- With a red uncle the colors are changed, and the way goes on above. -/
theorem fixTurn_recolor (hf : f.color = .red) (hg : g.sibling.color = .red) :
    fixTurn (t, f :: g :: above) = some (.inl (recolor t f g, above)) := by
  simp only [fixTurn, hf, if_pos hg]

/-- With a black uncle the tree is rotated, once or twice. -/
theorem fixTurn_raise (hf : f.color = .red) (hg : g.sibling.color = .black) :
    fixTurn (t, f :: g :: above) =
      some (.inl ((straighten g.side t f).1, raise (straighten g.side t f).2 g :: above)) := by
  simp only [fixTurn, hf, hg, reduceCtorEq, if_false]

/-- A turn that ends the loop is at the root or under a black node. -/
theorem fixTurn_inr {t' : RBTree α} (h : fixTurn (t, above) = some (.inr t')) :
    t' = (plug t above).blacken ∧ ∀ f rest, above = f :: rest → f.color = .black := by
  cases above with
  | nil =>
    cases h
    exact ⟨rfl, fun _ _ hcons => by cases hcons⟩
  | cons f above =>
    cases hf : f.color with
    | black =>
      rw [fixTurn_black hf] at h
      cases h
      exact ⟨rfl, fun _ _ hcons => by cases hcons; exact hf⟩
    | red =>
      cases above with
      | nil => simp only [fixTurn, hf, reduceCtorEq] at h
      | cons g above =>
        cases hg : g.sibling.color with
        | red => simp only [fixTurn_recolor hf hg, Option.some.injEq, reduceCtorEq] at h
        | black => simp only [fixTurn_raise hf hg, Option.some.injEq, reduceCtorEq] at h

/-- A turn that goes on is under a red node with a parent. -/
theorem fixTurn_inl {s : RBTree α × List (Frame α)} (h : fixTurn (t, above) = some (.inl s)) :
    ∃ f g rest, above = f :: g :: rest ∧ f.color = .red ∧
      (g.sibling.color = .red ∧ s = (recolor t f g, rest) ∨
        g.sibling.color = .black ∧
          s = ((straighten g.side t f).1, raise (straighten g.side t f).2 g :: rest)) := by
  cases above with
  | nil => cases h
  | cons f above =>
    cases hf : f.color with
    | black =>
      rw [fixTurn_black hf] at h
      cases h
    | red =>
      cases above with
      | nil => simp only [fixTurn, hf, reduceCtorEq] at h
      | cons g rest =>
        refine ⟨f, g, rest, rfl, hf, ?_⟩
        cases hg : g.sibling.color with
        | red =>
          rw [fixTurn_recolor hf hg] at h
          cases h
          exact .inl ⟨rfl, rfl⟩
        | black =>
          rw [fixTurn_raise hf hg] at h
          cases h
          exact .inr ⟨rfl, rfl⟩

/-! The walk -/

/-- A change of colors keeps the order. -/
theorem inorder_recolor : (recolor t f g).inorder = (g.fill (f.fill t)).inorder := by
  obtain ⟨side, c, x, sibling⟩ := f
  obtain ⟨side', c', y, sibling'⟩ := g
  cases side <;> cases side' <;> simp [recolor, Frame.fill, join, RBTree.inorder]

/-- The first rotation keeps the order. -/
theorem inorder_straighten :
    ((straighten d t f).2.fill (straighten d t f).1).inorder = (f.fill t).inorder := by
  obtain ⟨side, c', y, sibling⟩ := f
  cases t with
  | nil => rfl
  | node c l x r =>
    cases side <;> cases d <;>
      simp [straighten, Frame.fill, join, RBTree.child, Side.other, RBTree.inorder]

/-- The second rotation keeps the order. -/
theorem inorder_raise (h : f.side = g.side) :
    ((raise f g).fill t).inorder = (g.fill (f.fill t)).inorder := by
  obtain ⟨side, c, x, sibling⟩ := f
  obtain ⟨side', c', y, sibling'⟩ := g
  cases h
  cases side <;> simp [raise, Frame.fill, join, RBTree.inorder]

theorem inorder_fill_congr {s : RBTree α} (h : s.inorder = t.inorder) :
    (f.fill s).inorder = (f.fill t).inorder := by
  obtain ⟨side, c, x, sibling⟩ := f
  cases side <;> simp [Frame.fill, join, RBTree.inorder, h]

theorem inorder_plug_congr {s : RBTree α} (h : s.inorder = t.inorder) :
    (plug s above).inorder = (plug t above).inorder := by
  rw [inorder_plug, inorder_plug, h]

/-! The colors -/

theorem color_blacken (t : RBTree α) : t.blacken.color = .black := by
  cases t <;> rfl

theorem blacken_of_black (h : t.color = .black) : t.blacken = t := by
  cases t with
  | nil => rfl
  | node c l x r =>
    cases h
    rfl

/-- What the turns keep: the subtree is red, and the two parts are balanced on their own. -/
def Fixing (s : RBTree α × List (Frame α)) : Prop :=
  s.1.color = .red ∧ ∃ n, s.1.Balanced n ∧ BalancedAbove s.2 n

/-- The tree is fixed. -/
def Fixed (s : RBTree α × List (Frame α)) (t : RBTree α) : Prop :=
  t.inorder = (plug s.1 s.2).inorder ∧ t.color = .black ∧ ∃ n, t.Balanced n

/-- After the first rotation, child and parent are on the same side. -/
theorem side_straighten (hred : t.color = .red) : (straighten d t f).2.side = d := by
  cases t with
  | nil => cases hred
  | node c l x r =>
    rw [straighten]
    split
    next hside => exact hside
    next => rfl

/-- A red subtree under a red node stays one. -/
theorem balanced_straighten (hred : t.color = .red) (ht : t.Balanced n) (hf : f.color = .red)
    (hblack : f.sibling.color = .black) (hsibling : f.sibling.Balanced n) :
    (straighten d t f).1.color = .red ∧ (straighten d t f).1.Balanced n ∧
      (straighten d t f).2.sibling.color = .black ∧ (straighten d t f).2.sibling.Balanced n := by
  cases t with
  | nil => cases hred
  | node c l x r =>
    cases (show c = .red from hred)
    have hnode := ht
    rw [← join_child d .red l x r, balanced_join_red] at hnode
    obtain ⟨hnear, hfar, hbnear, hbfar⟩ := hnode
    rw [straighten]
    split
    · exact ⟨hred, ht, hblack, hsibling⟩
    · simp only [hf]
      exact ⟨color_join .., balanced_join_red.mpr ⟨hblack, hnear, hsibling, hbnear⟩, hfar, hbfar⟩

/-- Under a red node the frames start with that node and its black parent. -/
theorem balancedAbove_red (hf : f.color = .red) (h : BalancedAbove (f :: above) n) :
    f.sibling.color = .black ∧ f.sibling.Balanced n ∧ ∃ g rest, above = g :: rest ∧
      g.color = .black ∧ g.sibling.Balanced n ∧ BalancedAbove rest (n + 1) := by
  simp only [BalancedAbove, hf] at h
  obtain ⟨hsibling, hblack, hup, habove⟩ := h
  cases above with
  | nil => cases hup
  | cons g rest =>
    have hg : g.color = .black := hup
    simp only [BalancedAbove, hg] at habove
    exact ⟨hblack, hsibling, g, rest, rfl, hg, habove⟩

/-- After the change of colors, what the turns keep holds two levels up. -/
theorem fixing_recolor (hred : g.sibling.color = .red) (ht : t.Balanced n)
    (hsibling : f.sibling.Balanced n) (huncle : g.sibling.Balanced n)
    (habove : BalancedAbove above (n + 1)) : Fixing (recolor t f g, above) :=
  ⟨color_join .., n + 1, balanced_join_red.mpr ⟨color_join .., color_blacken _,
    balanced_join_black.mpr ⟨ht, hsibling⟩, balanced_blacken huncle hred⟩, habove⟩

/-- After the rotations, what the turns keep holds below a black node. -/
theorem fixing_raise (hred : t.color = .red) (ht : t.Balanced n)
    (hblack : f.sibling.color = .black) (hsibling : f.sibling.Balanced n)
    (huncleBlack : g.sibling.color = .black) (huncle : g.sibling.Balanced n)
    (habove : BalancedAbove above (n + 1)) : Fixing (t, raise f g :: above) :=
  ⟨hred, n, ht, balanced_join_red.mpr ⟨hblack, huncleBlack, hsibling, huncle⟩, habove⟩

/-- A turn without a red node above ends the loop. -/
theorem fixTurn_last (h : Fixing (t, above)) (hlast : ∀ f rest, above = f :: rest → f.color = .black) :
    ∃ t', fixTurn (t, above) = some (.inr t') ∧ Fixed (t, above) t' := by
  obtain ⟨hred, n, ht, habove⟩ := h
  cases above with
  | nil => exact ⟨_, rfl, inorder_blacken t, color_blacken t, n + 1, balanced_blacken ht hred⟩
  | cons f above =>
    obtain ⟨hblack, hbalanced⟩ := balanced_plug ht habove fun _ => hlast f above rfl
    refine ⟨_, fixTurn_black (hlast f above rfl), ?_⟩
    rw [blacken_of_black hblack]
    exact ⟨rfl, hblack, hbalanced⟩

/-- What a turn does: it ends the loop, goes on two frames higher, or goes on where it then ends. -/
theorem fixTurn_cases (h : Fixing (t, above)) :
    (∃ t', fixTurn (t, above) = some (.inr t') ∧ Fixed (t, above) t') ∨
      ∃ t' above', fixTurn (t, above) = some (.inl (t', above')) ∧ Fixing (t', above') ∧
        (plug t' above').inorder = (plug t above).inorder ∧
        (above'.length + 2 = above.length ∨ 2 ≤ above.length ∧
          ∀ f rest, above' = f :: rest → f.color = .black) := by
  cases above with
  | nil => exact .inl (fixTurn_last h fun _ _ hnil => by cases hnil)
  | cons f above =>
    cases hf : f.color with
    | black => exact .inl (fixTurn_last h fun _ _ hcons => by cases hcons; exact hf)
    | red =>
      obtain ⟨hred, n, ht, habove⟩ := h
      obtain ⟨hblack, hsibling, g, above, rfl, -, huncle, habove⟩ := balancedAbove_red hf habove
      refine .inr ?_
      cases hg : g.sibling.color with
      | red =>
        exact ⟨_, _, fixTurn_recolor hf hg, fixing_recolor hg ht hsibling huncle habove,
          inorder_plug_congr inorder_recolor, .inl rfl⟩
      | black =>
        obtain ⟨hred', ht', hblack', hsibling'⟩ :=
          balanced_straighten (d := g.side) hred ht hf hblack hsibling
        refine ⟨_, _, fixTurn_raise hf hg,
          fixing_raise hred' ht' hblack' hsibling' hg huncle habove, ?_,
          .inr ⟨Nat.le_add_left 2 above.length, fun _ _ hcons => by cases hcons; rfl⟩⟩
        refine inorder_plug_congr ((inorder_raise (side_straighten hred)).trans ?_)
        exact inorder_fill_congr inorder_straighten

/-- A turn that goes on keeps what the turns keep. -/
theorem Fixing.turn {s : RBTree α × List (Frame α)} (h : Fixing (t, above))
    (hturn : fixTurn (t, above) = some (.inl s)) : Fixing s := by
  rcases fixTurn_cases h with ⟨t', hlast, -⟩ | ⟨t', above', hnext, hfixing, -⟩
  · cases hlast.symm.trans hturn
  · cases hnext.symm.trans hturn
    exact hfixing

/-- The loop ends in a tree with the same walk that is balanced and black, after one turn for two
frames and at most two more. -/
theorem fix (h : Fixing (t, above)) :
    ∃ t', loop (fun _ => fixTurn) (above.length / 2 + 2) (t, above) = some t' ∧
      Fixed (t, above) t' := by
  obtain ⟨k, hk⟩ : ∃ k, k = above.length := ⟨_, rfl⟩
  induction k using Nat.strong_induction_on generalizing t above with
  | _ k ih =>
    rcases fixTurn_cases h with ⟨t', hturn, hfixed⟩ | ⟨t', above', hturn, hfixing, hwalk, hless⟩
    · exact ⟨t', loop_inr hturn, hfixed⟩
    · rcases hless with hless | ⟨-, hlast⟩
      · obtain ⟨t'', hloop, hinorder, hrest⟩ := ih above'.length (by omega) hfixing rfl
        refine ⟨t'', ?_, hinorder.trans hwalk, hrest⟩
        rw [show above.length / 2 + 2 = above'.length / 2 + 2 + 1 by omega, loop_inl hturn]
        exact hloop
      · obtain ⟨t'', hturn', hinorder, hrest⟩ := fixTurn_last hfixing hlast
        refine ⟨t'', ?_, hinorder.trans hwalk, hrest⟩
        rw [loop_inl hturn, loop_inr hturn']

end

end Rbml.Lib.RedBlack
