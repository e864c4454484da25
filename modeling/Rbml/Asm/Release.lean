import Mathlib.Data.List.Basic
import Rbml.Asm.Storage

/-!
# Loops that release the node they stand on

`symbol_define` and `symbol_free` release the first reference and then read its link, and the walk of
`code_free` climbs through parent links to nodes it has released. What they do then depends on what a
released node holds.

`hostile` is a behaviour of `free` for which each of the three fails as soon as it depends on released
storage at all: a released reference links to itself, and a released symbol has no links. A list of
references never ends under it. In the tree, a right child without children of its own has a parent
that is released and does not know the child any more, so that the walk comes to the parent again.
-/

namespace Rbml.Asm.Storage

open Rbml.Lib

/-! ## References -/

/-- The nodes of an `SLIST`, from the content of its head -/
def RefList (refs : Ptr → Option RefNode) : Option Ptr → List Ptr → Prop
  | first, [] => first = none
  | first, ref :: l => first = some ref ∧ ∃ node, refs ref = some node ∧ RefList refs node.link l

theorem refList_none {refs : Ptr → Option RefNode} {l : List Ptr} :
    RefList refs none l ↔ l = [] := by
  cases l with
  | nil => exact iff_of_true rfl rfl
  | cons ref l => exact iff_of_false (fun h => by cases h.1) (by simp)

/-- The list of pending references of `s` is empty. -/
def NoRefs (st : Store) (s : Ptr) : Prop := ∃ node, st.symbols s = some node ∧ node.symbolRefs = none

theorem NoRefs.symbolRefs {st : Store} {s : Ptr} {node : SymbolNode} (h : NoRefs st s)
    (hnode : st.symbols s = some node) : node.symbolRefs = none := by
  obtain ⟨node', hnode', hrefs⟩ := h
  cases hnode.symm.trans hnode'
  exact hrefs

/-- A released reference links to itself, and a released symbol to nothing. -/
def hostile : Free where
  ref _ p _ := ⟨0, 0, some p⟩
  symbol _ _ _ := ⟨0, 0, none, none, none, none⟩

section
variable {free : Free} {visit : Ptr → Store → Option Store} {s ref : Ptr} {st st' : Store}
  {node : SymbolNode} {fuel : Nat}

theorem steady_releaseRefs (free : Free) (visit : Ptr → Store → Option Store) (s : Ptr)
    (st : Store) : Steady fun fuel => releaseRefs free visit s fuel st :=
  steady_loop_turn (releaseTurn free visit s) st

/-- Without pending references the loop is over. -/
theorem releaseRefs_of_noRefs (h : NoRefs st s) :
    releaseRefs free visit s (fuel + 1) st = some st := by
  obtain ⟨node, hnode, hrefs⟩ := h
  apply loop_inr
  simp only [releaseTurn, hnode, hrefs, Option.bind_eq_bind, Option.bind_some]

/-- A turn on a pending reference under `hostile`: the head still points to a reference. -/
theorem releaseTurn_hostile (hvisit : ∀ ref st st', visit ref st = some st' → st'.symbols = st.symbols)
    (hnode : st.symbols s = some node) (href : node.symbolRefs = some ref)
    {next : Store ⊕ Store} (h : releaseTurn hostile visit s st = some next) :
    ∃ st', next = .inl st' ∧ st'.symbols s = some { node with symbolRefs := some ref } := by
  simp only [releaseTurn, hnode, href, Option.bind_eq_bind, Option.bind_some] at h
  obtain ⟨st₁, h₁, h⟩ := Option.bind_eq_some_iff.mp h
  obtain ⟨st₂, h₂, h⟩ := Option.bind_eq_some_iff.mp h
  obtain ⟨st₃, h₃, h⟩ := Option.bind_eq_some_iff.mp h
  obtain ⟨r, -, h₂⟩ := Option.bind_eq_some_iff.mp h₂
  cases h₂
  simp only [slistRemoveHead, hvisit _ _ _ h₁, hnode, href, hostile, Function.update_self,
    Option.bind_eq_bind, Option.bind_some] at h₃
  cases h₃
  cases h
  exact ⟨_, rfl, Function.update_self _ _ _⟩

/-- A pending reference keeps the loop going for ever. -/
theorem releaseRefs_hostile (hvisit : ∀ ref st st', visit ref st = some st' → st'.symbols = st.symbols)
    (hnode : st.symbols s = some node) (href : node.symbolRefs = some ref) :
    ¬ Settles (fun fuel => releaseRefs hostile visit s fuel st) st' := by
  refine not_settles_loop (P := fun st => ∃ node, st.symbols s = some node ∧
    node.symbolRefs = some ref) ?_ ⟨node, hnode, href⟩
  rintro - st next ⟨node, hnode, href⟩ h
  obtain ⟨st', rfl, hnode'⟩ := releaseTurn_hostile hvisit hnode href h
  exact ⟨st', rfl, _, hnode', rfl⟩

/-- What `symbol_free` leaves of a symbol -/
def released (free : Free) (s : Ptr) (node : SymbolNode) (st : Store) : Store :=
  { st.setSymbol s (free.symbol st.events s node) with events := st.events ++ [.releaseSymbol s] }

theorem symbolFree_of_noRefs (hnode : st.symbols s = some node) (hrefs : node.symbolRefs = none) :
    symbolFree free (fuel + 1) s st = some (released free s node st) := by
  simp only [symbolFree, releaseRefs_of_noRefs ⟨node, hnode, hrefs⟩, hnode, Option.bind_eq_bind,
    Option.bind_some, released]

theorem steady_symbolFree (free : Free) (s : Ptr) (st : Store) :
    Steady fun fuel => symbolFree free fuel s st :=
  (steady_releaseRefs free _ s st).bind fun _ => steady_const _

theorem symbolFree_hostile (hnode : st.symbols s = some node) (href : node.symbolRefs = some ref) :
    symbolFree hostile fuel s st = none := by
  cases h : releaseRefs hostile (fun _ st => some st) s fuel st with
  | none => simp only [symbolFree, h, Option.bind_eq_bind, Option.bind_none]
  | some st' =>
    have hends : Settles (fun fuel => releaseRefs hostile (fun _ st => some st) s fuel st) st' :=
      ⟨fuel, h⟩
    refine absurd hends (releaseRefs_hostile ?_ hnode href)
    intro _ _ _ hvisit
    cases hvisit
    rfl

end

/-- `symbol_define` ends with the list empty, and has patched the word of every reference of `l`
exactly once. -/
def DefinesOnce (free : Free) (s : Ptr) (lineNum offset : Nat) (st : Store) (l : List Ptr) : Prop :=
  ∃ st', Settles (fun fuel => symbolDefine free fuel s lineNum offset st) st' ∧ NoRefs st' s ∧
    ∀ ref ∈ l, st'.events.count (.patch ref) = st.events.count (.patch ref) + 1

/-- `symbol_free` ends, and has released every reference of `l` exactly once. -/
def FreesOnce (free : Free) (s : Ptr) (st : Store) (l : List Ptr) : Prop :=
  ∃ st', Settles (fun fuel => symbolFree free fuel s st) st' ∧
    ∀ ref ∈ l, st'.events.count (.releaseRef ref) = st.events.count (.releaseRef ref) + 1

section
variable {s : Ptr} {st : Store} {node : SymbolNode} {l : List Ptr}

theorem definesOnce_iff (hnode : st.symbols s = some node)
    (hl : RefList st.refs node.symbolRefs l) :
    (∀ free lineNum offset, DefinesOnce free s lineNum offset st l) ↔ l = [] := by
  constructor
  · intro h
    cases hrefs : node.symbolRefs with
    | none => exact refList_none.mp (hrefs ▸ hl)
    | some ref =>
      obtain ⟨st', hsettles, -⟩ := h hostile 0 0
      simp only [symbolDefine, hnode, Option.bind_eq_bind, Option.bind_some] at hsettles
      refine absurd hsettles (releaseRefs_hostile ?_ (Function.update_self _ _ _) hrefs)
      intro _ _ _ hpatch
      obtain ⟨_, -, hpatch⟩ := Option.bind_eq_some_iff.mp hpatch
      obtain ⟨_, -, hpatch⟩ := Option.bind_eq_some_iff.mp hpatch
      split at hpatch <;> cases hpatch
      rfl
  · rintro rfl free lineNum offset
    have hrefs : node.symbolRefs = none := hl
    refine ⟨st.setSymbol s { node with lineNum, offset }, ⟨1, ?_⟩, ?_, by simp⟩
    · simp only [symbolDefine, hnode, Option.bind_eq_bind, Option.bind_some]
      exact releaseRefs_of_noRefs ⟨_, Function.update_self _ _ _, hrefs⟩
    · exact ⟨_, Function.update_self _ _ _, hrefs⟩

theorem freesOnce_iff (hnode : st.symbols s = some node)
    (hl : RefList st.refs node.symbolRefs l) :
    (∀ free, FreesOnce free s st l) ↔ l = [] := by
  constructor
  · intro h
    cases hrefs : node.symbolRefs with
    | none => exact refList_none.mp (hrefs ▸ hl)
    | some ref =>
      obtain ⟨st', ⟨fuel, hfuel⟩, -⟩ := h hostile
      have hnone : symbolFree hostile fuel s st = none := symbolFree_hostile hnode hrefs
      cases hnone.symm.trans hfuel
  · rintro rfl free
    exact ⟨_, ⟨1, symbolFree_of_noRefs hnode hl⟩, by simp⟩

end

/-! ## Storage that keeps its links

With a `free` that leaves the links of references in place, `symbol_define` in storage does what
`symbolDefine` does on the list. -/

/-- The references on a list of addresses -/
def refsAt (refs : Ptr → Option RefNode) (l : List Ptr) : List SymbolRef :=
  l.filterMap fun ref => (refs ref).map fun node => ⟨node.lineNum, node.offset⟩

/-- A reference of another list can change. -/
theorem RefList.update {refs : Ptr → Option RefNode} {first : Option Ptr} {l : List Ptr} {ref : Ptr}
    (h : RefList refs first l) (href : ref ∉ l) (node : Option RefNode) :
    RefList (Function.update refs ref node) first l := by
  induction l generalizing first with
  | nil => exact h
  | cons ref' l ih =>
    obtain ⟨hfirst, node', hnode, hrest⟩ := h
    have hne : ref' ≠ ref := fun heq => href (by simp [heq])
    have hl : ref ∉ l := fun hmem => href (List.mem_cons_of_mem _ hmem)
    exact ⟨hfirst, node', (Function.update_of_ne hne _ _).trans hnode, ih hrest hl⟩

theorem refsAt_update {refs : Ptr → Option RefNode} {l : List Ptr} {ref : Ptr} (href : ref ∉ l)
    (node : Option RefNode) : refsAt (Function.update refs ref node) l = refsAt refs l := by
  refine List.filterMap_congr fun ref' hmem => ?_
  have hne : ref' ≠ ref := fun heq => href (heq ▸ hmem)
  rw [Function.update_of_ne hne]

section
variable {free : Free} {s : Ptr} {st : Store} {node : SymbolNode} {l : List Ptr}

/-- What a turn of `symbol_define` on `ref` leaves -/
def defined (free : Free) (s ref : Ptr) (node : SymbolNode) (r : RefNode) (st : Store) : Store where
  refs := Function.update st.refs ref (some (free.ref (st.events ++ [.patch ref]) ref r))
  symbols := Function.update st.symbols s (some { node with symbolRefs := r.link })
  text := st.text.modify r.offset (rbmlSetArg3 · (BitVec.ofNat 32 node.offset))
  events := st.events ++ [.patch ref, .releaseRef ref]

theorem releaseTurn_of_keeps (hkeeps : ∀ events p r, (free.ref events p r).link = r.link)
    (hnode : st.symbols s = some node) {ref : Ptr} {r : RefNode} (hrefs : node.symbolRefs = some ref)
    (hr : st.refs ref = some r) (hoffset : r.offset < st.text.length) :
    releaseTurn free (patchRef s) s st = some (.inl (defined free s ref node r st)) := by
  simp [releaseTurn, patchRef, symbolRefFree, slistRemoveHead, Store.setSymbol, defined, hnode, hrefs,
    hr, hoffset, hkeeps]

theorem settles_releaseRefs_of_keeps (hkeeps : ∀ events p r, (free.ref events p r).link = r.link)
    (hnode : st.symbols s = some node) (hl : RefList st.refs node.symbolRefs l) (hnodup : l.Nodup)
    (hoffsets : ∀ ref ∈ refsAt st.refs l, ref.offset < st.text.length) :
    ∃ st', Settles (fun fuel => releaseRefs free (patchRef s) s fuel st) st' ∧ NoRefs st' s ∧
      st'.text = patchRefs node.offset (refsAt st.refs l) st.text ∧
      st'.events = st.events ++ l.flatMap fun ref => [.patch ref, .releaseRef ref] := by
  induction l generalizing st node with
  | nil => exact ⟨st, ⟨1, releaseRefs_of_noRefs ⟨node, hnode, hl⟩⟩, ⟨node, hnode, hl⟩, rfl, by simp⟩
  | cons ref l ih =>
    obtain ⟨hfirst, r, hr, hrest⟩ := hl
    obtain ⟨href, hnodup⟩ := List.nodup_cons.mp hnodup
    have hat : refsAt st.refs (ref :: l) = ⟨r.lineNum, r.offset⟩ :: refsAt st.refs l := by
      simp [refsAt, hr]
    rw [hat] at hoffsets ⊢
    have hturn := releaseTurn_of_keeps hkeeps hnode hfirst hr (hoffsets _ List.mem_cons_self)
    have hl : RefList (defined free s ref node r st).refs r.link l := hrest.update href _
    have hrefsAt : refsAt (defined free s ref node r st).refs l = refsAt st.refs l :=
      refsAt_update href _
    have hnode' : (defined free s ref node r st).symbols s = some { node with symbolRefs := r.link } :=
      Function.update_self _ _ _
    have hoffsets' : ∀ ref' ∈ refsAt (defined free s ref node r st).refs l,
        ref'.offset < (defined free s ref node r st).text.length := by
      intro ref' hmem
      rw [hrefsAt] at hmem
      simpa [defined] using hoffsets ref' (List.mem_cons_of_mem _ hmem)
    obtain ⟨st', hsettles, hnone, htext, hevents⟩ := ih hnode' hl hnodup hoffsets'
    refine ⟨st', (settles_loop_turn hturn).mpr hsettles, hnone, ?_, ?_⟩
    · rw [htext, hrefsAt]
      rfl
    · rw [hevents]
      simp [defined]

theorem symbolDefine_of_keeps (hkeeps : ∀ events p r, (free.ref events p r).link = r.link)
    (hnode : st.symbols s = some node) (hl : RefList st.refs node.symbolRefs l) (hnodup : l.Nodup)
    (hoffsets : ∀ ref ∈ refsAt st.refs l, ref.offset < st.text.length) (name : String)
    (lineNum offset : Nat) :
    ∃ st', Settles (fun fuel => symbolDefine free fuel s lineNum offset st) st' ∧ NoRefs st' s ∧
      st'.text = (Asm.symbolDefine ⟨name, node.lineNum, node.offset, refsAt st.refs l⟩ lineNum offset
        st.text).2 ∧
      st'.events = st.events ++ l.flatMap fun ref => [.patch ref, .releaseRef ref] := by
  have hnode' : (st.setSymbol s { node with lineNum, offset }).symbols s =
      some { node with lineNum, offset } := Function.update_self _ _ _
  obtain ⟨st', hsettles, hnone, htext, hevents⟩ :=
    settles_releaseRefs_of_keeps hkeeps hnode' hl hnodup hoffsets
  refine ⟨st', ?_, hnone, htext, hevents⟩
  simpa only [symbolDefine, hnode, Option.bind_eq_bind, Option.bind_some] using hsettles

end

end Rbml.Asm.Storage
