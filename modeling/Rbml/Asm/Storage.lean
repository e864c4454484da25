import Mathlib.Logic.Function.Basic
import Rbml.Asm.Symbol
import Rbml.Lib.Loop

/-!
# Symbols and references in storage (`symbol.c`, `code.c`, `queue.h`, `tree.h`)

The other modules have the pending references of a symbol as a list and the symbol table as an
ordered table. Here are the nodes behind them, with their links: the head and the `sle_next` of an
`SLIST`, and the left, right and parent links of the tree. The loops that walk these links and release
nodes on the way are the ones whose result depends on what a released node holds.

`free` puts arbitrary values in the place of a node (`Free`), which may depend on everything released
before. A released node can be read, and gives these values. An address without a node cannot: a
loop that comes to one has no result.

The string of a symbol's name and the color of a tree node are no links, and no loop here reads them.
-/

namespace Rbml.Asm.Storage

open Rbml.Lib

/-- An address. A link is `none` where it is `NULL`. -/
abbrev Ptr := Nat

/-- `struct symbol_ref` in storage -/
structure RefNode where
  lineNum : Nat
  offset : Nat
  link : Option Ptr
  deriving DecidableEq, Repr

/-- `struct symbol` in storage, with the fields of its `RB_ENTRY` and the head of its `SLIST` -/
structure SymbolNode where
  lineNum : Nat
  offset : Nat
  left : Option Ptr
  right : Option Ptr
  parent : Option Ptr
  symbolRefs : Option Ptr
  deriving DecidableEq, Repr

/-- What the loops do to a node -/
inductive Event where
  /-- the word of a reference is patched -/
  | patch (ref : Ptr)
  | releaseRef (ref : Ptr)
  | releaseSymbol (s : Ptr)
  deriving DecidableEq, Repr

/-- The storage that the loops work on, with what they did so far -/
structure Store where
  refs : Ptr → Option RefNode
  symbols : Ptr → Option SymbolNode
  text : List Word
  events : List Event

/-- What a released node holds -/
structure Free where
  ref : List Event → Ptr → RefNode → RefNode
  symbol : List Event → Ptr → SymbolNode → SymbolNode

/-- The write of a symbol node -/
def Store.setSymbol (st : Store) (s : Ptr) (node : SymbolNode) : Store :=
  { st with symbols := Function.update st.symbols s (some node) }

/-! ## References -/

/-- `symbol_ref_free` -/
def symbolRefFree (free : Free) (ref : Ptr) (st : Store) : Option Store := do
  let node ← st.refs ref
  some { st with
    refs := Function.update st.refs ref (some (free.ref st.events ref node))
    events := st.events ++ [.releaseRef ref] }

/-- `SLIST_REMOVE_HEAD(&s->symbol_refs, link)`, which reads the link of the first node -/
def slistRemoveHead (s : Ptr) (st : Store) : Option Store := do
  let node ← st.symbols s
  let first ← node.symbolRefs
  let ref ← st.refs first
  some (st.setSymbol s { node with symbolRefs := ref.link })

/-- One turn of the loops of `symbol_free` and `symbol_define`. They differ in what they do with the
reference before they release it. -/
def releaseTurn (free : Free) (visit : Ptr → Store → Option Store) (s : Ptr) (st : Store) :
    Option (Store ⊕ Store) := do
  let node ← st.symbols s
  match node.symbolRefs with
  | none => some (.inr st)
  | some ref =>
    let st ← visit ref st
    let st ← symbolRefFree free ref st
    let st ← slistRemoveHead s st
    some (.inl st)

/-- The loop of `symbol_free` and `symbol_define` over the references of `s` -/
def releaseRefs (free : Free) (visit : Ptr → Store → Option Store) (s : Ptr) (fuel : Nat)
    (st : Store) : Option Store :=
  loop (fun _ => releaseTurn free visit s) fuel st

/-- `RBML_SET_ARG3(text[ref->offset], s->offset)` -/
def patchRef (s ref : Ptr) (st : Store) : Option Store := do
  let node ← st.symbols s
  let r ← st.refs ref
  if r.offset < st.text.length then
    some { st with
      text := st.text.modify r.offset (rbmlSetArg3 · (BitVec.ofNat 32 node.offset))
      events := st.events ++ [.patch ref] }
  else none

/-- `symbol_define` -/
def symbolDefine (free : Free) (fuel : Nat) (s : Ptr) (lineNum offset : Nat) (st : Store) :
    Option Store := do
  let node ← st.symbols s
  releaseRefs free (patchRef s) s fuel (st.setSymbol s { node with lineNum, offset })

/-- `symbol_free` of a symbol, its name apart -/
def symbolFree (free : Free) (fuel : Nat) (s : Ptr) (st : Store) : Option Store := do
  let st ← releaseRefs free (fun _ st => some st) s fuel st
  let node ← st.symbols s
  some { st.setSymbol s (free.symbol st.events s node) with
    events := st.events ++ [.releaseSymbol s] }

/-! ## The tree -/

/-- One turn of the loop of `RB_MINMAX`, on `tmp` and `parent` -/
def rbMinmaxTurn (symbols : Ptr → Option SymbolNode) (val : Int) :
    Option Ptr × Option Ptr → Option ((Option Ptr × Option Ptr) ⊕ Option Ptr)
  | (none, parent) => some (.inr parent)
  | (some tmp, _) => do
    let node ← symbols tmp
    some (.inl (if val < 0 then node.left else node.right, some tmp))

/-- `symbol_table_RB_MINMAX` -/
def rbMinmax (symbols : Ptr → Option SymbolNode) (root : Option Ptr) (val : Int) (fuel : Nat) :
    Option (Option Ptr) :=
  loop (fun _ => rbMinmaxTurn symbols val) fuel (root, none)

/-- `while (RB_LEFT(elm)) elm = RB_LEFT(elm)` -/
def descendTurn (symbols : Ptr → Option SymbolNode) (elm : Ptr) : Option (Ptr ⊕ Option Ptr) := do
  let node ← symbols elm
  match node.left with
  | some left => some (.inl left)
  | none => some (.inr (some elm))

/-- `while (RB_PARENT(elm) && elm == RB_RIGHT(RB_PARENT(elm))) elm = RB_PARENT(elm)`, and the
`elm = RB_PARENT(elm)` after it -/
def climbTurn (symbols : Ptr → Option SymbolNode) (elm : Ptr) : Option (Ptr ⊕ Option Ptr) := do
  let node ← symbols elm
  match node.parent with
  | none => some (.inr none)
  | some parent =>
    let p ← symbols parent
    if p.right = some elm then some (.inl parent) else some (.inr (some parent))

/-- `RB_PARENT(elm) && elm == RB_LEFT(RB_PARENT(elm))` -/
def isLeftChild (symbols : Ptr → Option SymbolNode) (elm : Ptr) (parent : Option Ptr) :
    Option Bool :=
  match parent with
  | none => some false
  | some parent => do
    let p ← symbols parent
    some (p.left = some elm)

/-- `symbol_table_RB_NEXT` -/
def rbNext (symbols : Ptr → Option SymbolNode) (elm : Ptr) (fuel : Nat) : Option (Option Ptr) := do
  let node ← symbols elm
  match node.right with
  | some right => loop (fun _ => descendTurn symbols) fuel right
  | none =>
    let left ← isLeftChild symbols elm node.parent
    if left then some node.parent else loop (fun _ => climbTurn symbols) fuel elm

/-- One turn of the `RB_FOREACH_SAFE` of `code_free`: the next node is looked up before `s` is
released. -/
def codeFreeTurn (free : Free) (fuel : Nat) :
    Option Ptr × Store → Option ((Option Ptr × Store) ⊕ Store)
  | (none, st) => some (.inr st)
  | (some s, st) => do
    let next ← rbNext st.symbols s fuel
    let st ← symbolFree free fuel s st
    some (.inl (next, st))

/-- The loop of `code_free` from a node -/
def codeFreeFrom (free : Free) (s : Option Ptr) (st : Store) (fuel : Nat) : Option Store :=
  loop (codeFreeTurn free) fuel (s, st)

/-- The loop of `code_free` over the symbol table with the given root -/
def codeFree (free : Free) (root : Option Ptr) (st : Store) (fuel : Nat) : Option Store := do
  let s ← rbMinmax st.symbols root (-1) fuel
  codeFreeFrom free s st fuel

end Rbml.Asm.Storage
