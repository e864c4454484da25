import Mathlib.Logic.Function.Basic
import Rbml.Asm.Storage
import Rbml.Lib.RedBlack

/-!
# The red-black tree of `tree.h`

`RB_GENERATE` makes the functions of a tree out of the type of its elements, the field with the links
and the comparison. Here the type is a parameter, and a node is an element with the fields of its
`RB_ENTRY`. The head and the nodes are in one heap, in which an address without a node cannot be read
or written.

The macros for the left and the right side are one definition with the side as an argument. The test
`elm == RB_LEFT(RB_PARENT(elm))` of the rotations is about the left side in both, and `RB_AUGMENT` is
empty. The functions with a loop take fuel.
-/

namespace Rbml.Tree

open Rbml.Lib
open Rbml.Lib.RedBlack (Color Side)
open Rbml.Asm.Storage (Ptr)

/-- An element with its `RB_ENTRY` -/
structure Node (α : Type) where
  entry : α
  left : Option Ptr
  right : Option Ptr
  parent : Option Ptr
  color : Color

/-- The `RB_HEAD`, and the nodes in storage -/
structure Heap (α : Type) where
  root : Option Ptr
  nodes : Ptr → Option (Node α)

variable {α : Type}

/-! ## Fields -/

/-- `RB_LEFT`, `RB_RIGHT` -/
def Node.child (d : Side) (node : Node α) : Option Ptr :=
  match d with
  | .left => node.left
  | .right => node.right

def Node.setChild (d : Side) (p : Option Ptr) (node : Node α) : Node α :=
  match d with
  | .left => { node with left := p }
  | .right => { node with right := p }

def Node.setParent (p : Option Ptr) (node : Node α) : Node α := { node with parent := p }

def Node.setColor (c : Color) (node : Node α) : Node α := { node with color := c }

/-- The write of a node -/
def Heap.set (h : Heap α) (p : Ptr) (node : Node α) : Heap α :=
  { h with nodes := Function.update h.nodes p (some node) }

/-- The write of a field of a node -/
def Heap.modify (h : Heap α) (p : Ptr) (f : Node α → Node α) : Option (Heap α) :=
  (h.nodes p).map fun node => h.set p (f node)

/-- `RB_SET` -/
def rbSet (elm : Ptr) (parent : Option Ptr) (h : Heap α) : Option (Heap α) :=
  h.modify elm fun node => ⟨node.entry, none, none, parent, .red⟩

/-- `RB_SET_BLACKRED` -/
def rbSetBlackred (black red : Ptr) (h : Heap α) : Option (Heap α) := do
  let h ← h.modify black (·.setColor .black)
  h.modify red (·.setColor .red)

/-! ## Rotations -/

/-- `if (p != NULL) RB_PARENT(p) = parent` -/
def adopt (p : Option Ptr) (parent : Ptr) (h : Heap α) : Option (Heap α) :=
  match p with
  | none => some h
  | some p => h.modify p (·.setParent (some parent))

/-- Put `tmp` where the parent of `elm`, or the head, has `elm`. -/
def replaceChild (parent : Option Ptr) (elm tmp : Ptr) (h : Heap α) : Option (Heap α) :=
  match parent with
  | none => some { h with root := some tmp }
  | some p => do
    let node ← h.nodes p
    h.modify p (·.setChild (if node.left = some elm then .left else .right) (some tmp))

/-- The rotation of `elm` to the side `d` -/
def rbRotate (d : Side) (elm : Ptr) (h : Heap α) : Option (Heap α) := do
  let node ← h.nodes elm
  let tmp ← node.child d.other
  let inner ← h.nodes tmp
  let h ← h.modify elm (·.setChild d.other (inner.child d))
  let h ← adopt (inner.child d) elm h
  let node ← h.nodes elm
  let h ← h.modify tmp (·.setParent node.parent)
  let h ← replaceChild node.parent elm tmp h
  let h ← h.modify tmp (·.setChild d (some elm))
  h.modify elm (·.setParent (some tmp))

/-- `RB_ROTATE_LEFT` -/
def rbRotateLeft (elm : Ptr) (h : Heap α) : Option (Heap α) := rbRotate .left elm h

/-- `RB_ROTATE_RIGHT` -/
def rbRotateRight (elm : Ptr) (h : Heap α) : Option (Heap α) := rbRotate .right elm h

/-! ## `RB_INSERT_COLOR` -/

/-- `tmp && RB_COLOR(tmp) == RB_RED` -/
def isRed (p : Option Ptr) (h : Heap α) : Option Bool :=
  match p with
  | none => some false
  | some p => (h.nodes p).map fun node => node.color = .red

/-- Rotate `parent` where `elm` is its child on the other side than `d`, and exchange the two. -/
def alignElm (d : Side) (elm parent : Ptr) (h : Heap α) : Option (Heap α × Ptr × Ptr) := do
  let p ← h.nodes parent
  if p.child d.other = some elm then
    let h ← rbRotate d parent h
    some (h, elm, parent)
  else some (h, parent, elm)

/-- The branch of the loop for a parent on the side `d` of the grandparent -/
def insertColorOn (d : Side) (elm parent gparent : Ptr) (h : Heap α) : Option (Heap α × Ptr) := do
  let g ← h.nodes gparent
  let red ← isRed (g.child d.other) h
  if red then
    let tmp ← g.child d.other
    let h ← h.modify tmp (·.setColor .black)
    let h ← rbSetBlackred parent gparent h
    some (h, gparent)
  else
    let (h, parent, elm) ← alignElm d elm parent h
    let h ← rbSetBlackred parent gparent h
    let h ← rbRotate d.other gparent h
    some (h, elm)

/-- `RB_COLOR(head->rbh_root) = RB_BLACK`, after the loop -/
def blackenRoot (h : Heap α) : Option (Heap α) := do
  let root ← h.root
  h.modify root (·.setColor .black)

/-- One turn of the loop, and what follows it -/
def insertColorTurn : Heap α × Ptr → Option ((Heap α × Ptr) ⊕ Heap α)
  | (h, elm) => do
    let node ← h.nodes elm
    match node.parent with
    | none => (blackenRoot h).map .inr
    | some parent =>
      let p ← h.nodes parent
      if p.color = .red then
        let gparent ← p.parent
        let g ← h.nodes gparent
        let next ←
          if g.left = some parent then insertColorOn .left elm parent gparent h
          else insertColorOn .right elm parent gparent h
        some (.inl next)
      else (blackenRoot h).map .inr

/-- `RB_INSERT_COLOR` -/
def rbInsertColor (fuel : Nat) (elm : Ptr) (h : Heap α) : Option (Heap α) :=
  loop (fun _ => insertColorTurn) fuel (h, elm)

/-! ## `RB_INSERT` and `RB_FIND` -/

/-- One turn of the loop of `RB_INSERT`, on `tmp`, `parent` and `comp`, where `cmp` is the comparison of
`elm` with an element. The loop ends at an element that compares equal or below a last parent. -/
def insertTurn (cmp : α → Int) (h : Heap α) : Option Ptr × Option Ptr × Int →
    Option ((Option Ptr × Option Ptr × Int) ⊕ (Ptr ⊕ (Option Ptr × Int)))
  | (none, parent, comp) => some (.inr (.inr (parent, comp)))
  | (some tmp, _, _) => do
    let node ← h.nodes tmp
    let comp := cmp node.entry
    if comp < 0 then some (.inl (node.left, some tmp, comp))
    else if 0 < comp then some (.inl (node.right, some tmp, comp))
    else some (.inr (.inl tmp))

/-- Make `elm` the child of `parent` on the side of the last comparison, or the root. -/
def linkElm (parent : Option Ptr) (comp : Int) (elm : Ptr) (h : Heap α) : Option (Heap α) :=
  match parent with
  | none => some { h with root := some elm }
  | some p => h.modify p (·.setChild (if comp < 0 then .left else .right) (some elm))

/-- `RB_INSERT`, with the element that it returns -/
def rbInsert (cmp : α → α → Int) (fuel : Nat) (elm : Ptr) (h : Heap α) :
    Option (Heap α × Option Ptr) := do
  let node ← h.nodes elm
  let place ← loop (fun _ => insertTurn (cmp node.entry) h) fuel (h.root, none, 0)
  match place with
  | .inl tmp => some (h, some tmp)
  | .inr (parent, comp) =>
    let h ← rbSet elm parent h
    let h ← linkElm parent comp elm h
    let h ← rbInsertColor fuel elm h
    some (h, none)

/-- One turn of the loop of `RB_FIND`, on `tmp` -/
def findTurn (cmp : α → Int) (h : Heap α) : Option Ptr → Option (Option Ptr ⊕ Option Ptr)
  | none => some (.inr none)
  | some tmp => do
    let node ← h.nodes tmp
    let comp := cmp node.entry
    if comp < 0 then some (.inl node.left)
    else if 0 < comp then some (.inl node.right)
    else some (.inr (some tmp))

/-- `RB_FIND`, where `cmp` is the comparison of the element looked for with another one -/
def rbFind (cmp : α → Int) (fuel : Nat) (h : Heap α) : Option (Option Ptr) :=
  loop (fun _ => findTurn cmp h) fuel h.root

end Rbml.Tree
