import Mathlib.Data.String.Basic
import Rbml.Asm.Actions
import Rbml.Tree.Walk

/-!
# The symbol table in storage (`code.c` over `tree.h`)

In the other modules the symbol table is an ordered table. Here it is the tree that
`RB_GENERATE(symbol_table, symbol, link, symbol_cmp)` makes, with a symbol at an address and its links
to others, and the functions of `code.c` and the actions of the parser hold a pointer to the symbol
that they look up. `calloc` gives the address of each symbol in turn. The loops of the tree take fuel.

A session with a tree and a session with a table refine one another: every function leaves a
red-black tree whose walk is the table (`Refines`).
-/

namespace Rbml.Asm.SymbolTree

open Rbml.Lib
open Rbml.Lib.RedBlack
open Rbml.Asm.Storage (Ptr)
open Rbml.Tree

/-! ## `symbol_cmp` -/

/-- `strcmp`. Its sign is that of the difference of the first characters that differ. -/
def strcmp : List Char → List Char → Int
  | [], [] => 0
  | [], _ :: _ => -1
  | _ :: _, [] => 1
  | c :: cs, d :: ds => if c = d then strcmp cs ds else (c.toNat : Int) - d.toNat

/-- The comparison of a name with that of a symbol: `symbol_cmp` reads the name of its first argument
and nothing else. -/
def nameCmp (name : String) (s : Symbol) : Int := strcmp name.toList s.name.toList

/-- `symbol_cmp` -/
def symbolCmp (a b : Symbol) : Int := nameCmp a.name b

theorem strcmp_neg_iff (cs ds : List Char) : strcmp cs ds < 0 ↔ cs < ds := by
  induction cs generalizing ds with
  | nil =>
    cases ds with
    | nil => simp [strcmp]
    | cons d ds => simp [strcmp]
  | cons c cs ih =>
    cases ds with
    | nil => simp [strcmp]
    | cons d ds =>
      rw [List.cons_lt_cons_iff, strcmp]
      by_cases hcd : c = d
      · simp [hcd, ih]
      · rw [if_neg hcd, sub_neg]
        have hlt : ((c.toNat : Int) < d.toNat) ↔ c < d := Int.ofNat_lt
        simp [hlt, hcd]

theorem strcmp_swap (cs ds : List Char) : strcmp cs ds = -strcmp ds cs := by
  induction cs generalizing ds with
  | nil => cases ds <;> rfl
  | cons c cs ih =>
    cases ds with
    | nil => rfl
    | cons d ds =>
      rw [strcmp, strcmp]
      by_cases hcd : c = d
      · rw [if_pos hcd, if_pos hcd.symm, ih]
      · rw [if_neg hcd, if_neg (Ne.symm hcd), Int.neg_sub]

theorem strcmp_pos_iff (cs ds : List Char) : 0 < strcmp cs ds ↔ ds < cs := by
  rw [strcmp_swap, Int.neg_pos, strcmp_neg_iff]

theorem compares_nameCmp (name : String) : Compares Symbol.name (nameCmp name) name := by
  intro s
  rw [nameCmp, strcmp_neg_iff, strcmp_pos_iff, String.lt_iff_toList_lt, String.lt_iff_toList_lt]
  exact ⟨Iff.rfl, Iff.rfl⟩

theorem compares_symbolCmp (s : Symbol) : Compares Symbol.name (symbolCmp s) s.name :=
  compares_nameCmp s.name

/-! ## `code.c` -/

/-- `struct code`, with the number of symbols that were allocated -/
structure Code where
  text : List Word
  allocated : Nat
  symbolTable : Heap Symbol
  numSymbols : Nat

def Code.size (c : Code) : Nat := c.text.length

/-- `code_alloc` -/
def codeAlloc : Code := ⟨[], 0, ⟨none, fun _ => none⟩, 0⟩

/-- `code_symbol_lookup` -/
def codeSymbolLookup (fuel : Nat) (c : Code) (name : String) : Option (Option Ptr) :=
  rbFind (nameCmp name) fuel c.symbolTable

/-- `code_symbol_add`: the record that `symbol_alloc` has from `calloc` has no links. -/
def codeSymbolAdd (calloc : Nat → Ptr) (fuel : Nat) (c : Code) (name : String) (lineNum : Nat) :
    Option (Code × Ptr) := do
  let s := calloc c.numSymbols
  let table := c.symbolTable.set s ⟨symbolAlloc name lineNum c.size, none, none, none, .black⟩
  let (symbolTable, _) ← rbInsert symbolCmp fuel s table
  some ({ c with symbolTable, numSymbols := c.numSymbols + 1 }, s)

/-- `code_symbol_ref` -/
def codeSymbolRef (calloc : Nat → Ptr) (fuel : Nat) (c : Code) (name : String) (lineNum : Nat) :
    Option (Code × Ptr) := do
  let found ← codeSymbolLookup fuel c name
  let (c, s) ←
    match found with
    | none => codeSymbolAdd calloc fuel c name 0
    | some s => some (c, s)
  let node ← c.symbolTable.nodes s
  if node.entry.lineNum = 0 then
    let entry := symbolRef lineNum c.size node.entry
    some ({ c with symbolTable := c.symbolTable.set s { node with entry } }, s)
  else some (c, s)

/-- `code_symbol_define` -/
def codeSymbolDefine (c : Code) (s : Ptr) (lineNum : Nat) : Option Code := do
  let node ← c.symbolTable.nodes s
  let (entry, text) := symbolDefine node.entry lineNum c.size c.text
  some { c with text, symbolTable := c.symbolTable.set s { node with entry } }

/-- `code_check_refs` -/
def codeCheckRefs (c : Code) (p : Parser) (fuel : Nat) : Option Parser :=
  rbForeach (fun p s => (c.symbolTable.nodes s).map fun node => symbolCheckRefs node.entry p)
    c.symbolTable p fuel

/-- `code_emit` -/
def codeEmit (c : Code) (w : Word) : Code :=
  let allocated :=
    if c.allocated ≤ c.size then c.allocated + codeAllocationStep else c.allocated
  { c with allocated, text := c.text ++ [w] }

/-! ## The actions of the parser -/

structure Session where
  parser : Parser
  code : Code

section
variable (calloc : Nat → Ptr) (fuel : Nat)

/-- The action of `label`. The result is `false` where the action ends in `YYERROR`. -/
def labelAction (ident : String) (st : Session) : Option (Bool × Session) := do
  let found ← codeSymbolLookup fuel st.code ident
  match found with
  | none =>
    let (code, _) ← codeSymbolAdd calloc fuel st.code ident st.parser.lineNum
    some (true, { st with code })
  | some s =>
    let node ← st.code.symbolTable.nodes s
    if node.entry.lineNum ≠ 0 then
      let message := redefinedMessage node.entry.name node.entry.lineNum
      some (false, { st with parser := parserError st.parser message })
    else
      let code ← codeSymbolDefine st.code s st.parser.lineNum
      some (true, { st with code })

/-- The actions of `instruction`. Those with a symbol refer to it first and read its address. -/
def instructionAction (ins : Instruction) (st : Session) : Option Session :=
  match ins.ident? with
  | none => some { st with code := codeEmit st.code (ins.encode 0) }
  | some ident => do
    let (code, s) ← codeSymbolRef calloc fuel st.code ident st.parser.lineNum
    let node ← code.symbolTable.nodes s
    some { st with code := codeEmit code (ins.encode node.entry.address) }

def instructionOpt (ins : Option Instruction) (st : Session) : Option Session :=
  match ins with
  | none => some st
  | some ins => instructionAction calloc fuel ins st

/-- One line -/
def parseLine (st : Session) (l : Line) : Option Session := do
  let st := { st with parser := { st.parser with lineNum := l.lineNum } }
  match l.label with
  | none => instructionOpt calloc fuel l.instruction st
  | some ident =>
    let (defined, st) ← labelAction calloc fuel ident st
    if defined then instructionOpt calloc fuel l.instruction st else some st

/-- All lines, in order -/
def parseLines (lines : List Line) (st : Session) : Option Session :=
  lines.foldlM (parseLine calloc fuel) st

/-- `parser_parse` on a file of well-formed lines -/
def parserParse (inputFile : String) (lines : List Line) : Option Session :=
  parseLines calloc fuel lines ⟨parserAlloc inputFile, codeAlloc⟩

end

/-! ## The two tables -/

/-- The tree is the table, in storage: a red-black tree with its entries, at addresses that were
allocated. -/
structure Refines (calloc : Nat → Ptr) (c : Code) (c' : Asm.Code) (t : RBTree (Ptr × Symbol)) :
    Prop where
  text : c.text = c'.text
  allocated : c.allocated = c'.allocated
  holds : Holds Symbol.name c.symbolTable t
  entries : t.inorder.map Prod.snd = c'.symbolTable.entries
  addresses : ∀ s ∈ addrs t, ∃ i < c.numSymbols, s = calloc i
  count : t.inorder.length = c.numSymbols

/-- Fuel for the loops of a tree with `n` symbols -/
def Enough (fuel n : Nat) : Prop := 2 * Nat.log 2 (n + 1) + 2 ≤ fuel

theorem Enough.mono {fuel n k : Nat} (h : Enough fuel n) (hk : k ≤ n) : Enough fuel k := by
  have hlog : Nat.log 2 (k + 1) ≤ Nat.log 2 (n + 1) := Nat.log_mono_right (by omega)
  rw [Enough] at h ⊢
  omega

section
variable {calloc : Nat → Ptr} {fuel : Nat} {c : Code} {c' : Asm.Code} {t : RBTree (Ptr × Symbol)}
  {name : String}

theorem refines_codeAlloc : Refines calloc codeAlloc Asm.codeAlloc .nil := by
  refine ⟨rfl, rfl, ⟨⟨rfl, trivial, trivial, ?_⟩, .nil, rfl, 0, rfl⟩, rfl, fun s hs => ?_, rfl⟩
  · exact .nil
  · cases hs

theorem Refines.size (h : Refines calloc c c' t) : c.size = c'.size := by
  rw [Code.size, Asm.Code.size, h.text]

theorem Refines.height (h : Refines calloc c c' t) (hfuel : Enough fuel c.numSymbols) :
    t.height + 2 ≤ fuel := by
  have hheight := h.holds.height_le
  rw [h.count] at hheight
  rw [Enough] at hfuel
  omega

theorem Refines.find? (h : Refines calloc c c' t) (name : String) :
    Asm.codeSymbolLookup c' name = (t.inorder.find? fun x => x.2.name == name).map Prod.snd := by
  rw [Asm.codeSymbolLookup, Table.find?, ← h.entries, List.find?_map]
  rfl

/-- A lookup gives the address of the symbol that the table has. -/
theorem Refines.lookup (h : Refines calloc c c' t) (hfuel : Enough fuel c.numSymbols)
    (name : String) :
    codeSymbolLookup fuel c name =
      some ((t.inorder.find? fun x => x.2.name == name).map Prod.fst) := by
  have hheight := h.height hfuel
  exact rbFind_spec h.holds (compares_nameCmp name) (by omega)

/-- A symbol that the table has is at its address. -/
theorem Refines.found (h : Refines calloc c c' t) {s : Symbol}
    (hs : Asm.codeSymbolLookup c' name = some s) :
    ∃ p node, (t.inorder.find? fun x => x.2.name == name) = some (p, s) ∧
      c.symbolTable.nodes p = some node ∧ node.entry = s := by
  rw [h.find?] at hs
  obtain ⟨⟨p, s'⟩, hfind, hs'⟩ := Option.map_eq_some_iff.mp hs
  cases hs'
  obtain ⟨node, hnode, hentry⟩ :=
    h.holds.spelled.below.node_of_mem (List.mem_of_find?_eq_some hfind)
  exact ⟨p, node, hfind, hnode, hentry⟩

/-- The write of a symbol, with a text -/
theorem Refines.update (h : Refines calloc c c' t) {p : Ptr} {s : Symbol} {node : Node Symbol}
    (hfind : (t.inorder.find? fun x => x.2.name == name) = some (p, s))
    (hnode : c.symbolTable.nodes p = some node) {g : Symbol → Symbol}
    (hg : ∀ s, (g s).name = s.name) (text : List Word) :
    ∃ t₁, Refines calloc { c with text, symbolTable := c.symbolTable.set p { node with entry := g s } }
      { c' with text, symbolTable := c'.symbolTable.update name g hg } t₁ := by
  have hholds := h.holds.update hg hfind hnode
  refine ⟨_, rfl, h.allocated, hholds, ?_, fun q hq => h.addresses q ?_, ?_⟩
  · rw [RBTree.inorder_map, List.map_map]
    simp only [Table.update, ← h.entries, List.map_map]
    refine List.map_congr_left fun x _ => ?_
    simp only [Function.comp_apply]
    split <;> rfl
  · rw [addrs, RBTree.inorder_map, List.map_map] at hq
    obtain ⟨x, hx, hxq⟩ := List.mem_map.mp hq
    refine List.mem_map.mpr ⟨x, hx, hxq ▸ ?_⟩
    simp only [Function.comp_apply]
    split <;> rfl
  · rw [RBTree.inorder_map, List.length_map]
    exact h.count

/-- A new symbol -/
theorem Refines.add (hcalloc : Function.Injective calloc) (h : Refines calloc c c' t)
    (hfuel : Enough fuel c.numSymbols) (hnone : Asm.codeSymbolLookup c' name = none)
    (lineNum : Nat) :
    ∃ c₁ t₁, codeSymbolAdd calloc fuel c name lineNum = some (c₁, calloc c.numSymbols) ∧
      Refines calloc c₁ (Asm.codeSymbolAdd c' name lineNum).1 t₁ ∧
      c₁.numSymbols = c.numSymbols + 1 ∧
      (t₁.inorder.find? fun x => x.2.name == name) =
        some (calloc c.numSymbols, symbolAlloc name lineNum c'.size) := by
  have hsize := h.size
  have hfresh : calloc c.numSymbols ∉ addrs t := by
    intro hmem
    obtain ⟨i, hi, heq⟩ := h.addresses _ hmem
    exact absurd (hcalloc heq) (by omega)
  have hnew : (t.inorder.find? fun x => x.2.name == name) = none := by
    have hfind := h.find? name
    rw [hnone] at hfind
    exact Option.map_eq_none_iff.mp hfind.symm
  have hzeroed : Holds Symbol.name (c.symbolTable.set (calloc c.numSymbols)
      ⟨symbolAlloc name lineNum c.size, none, none, none, .black⟩) t := h.holds.set_fresh hfresh
  obtain ⟨table, t₁, hinsert, hholds, hinorder, -⟩ :=
    rbInsert_new hzeroed compares_symbolCmp set_nodes_self hfresh hnew (h.height hfuel)
  have hmap : (Table.insertEntry (fun x : Ptr × Symbol => x.2.name)
      (calloc c.numSymbols, symbolAlloc name lineNum c.size) t.inorder).map Prod.snd =
        Table.insertEntry Symbol.name (symbolAlloc name lineNum c.size) (t.inorder.map Prod.snd) :=
    Table.map_insertEntry Prod.snd _ _
  have hentries : t₁.inorder.map Prod.snd =
      Table.insertEntry Symbol.name (symbolAlloc name lineNum c'.size) c'.symbolTable.entries := by
    rw [hinorder, hmap, h.entries, hsize]
  have hperm : t₁.inorder.Perm ((calloc c.numSymbols, symbolAlloc name lineNum c.size) :: t.inorder) := by
    have hinsert := Table.insert_perm (t := ⟨t.inorder, h.holds.ascending⟩)
      (a := (calloc c.numSymbols, symbolAlloc name lineNum c.size)) hnew
    rw [hinorder]
    exact hinsert
  have hmem : (calloc c.numSymbols, symbolAlloc name lineNum c.size) ∈ t₁.inorder :=
    hperm.mem_iff.mpr List.mem_cons_self
  refine ⟨{ c with symbolTable := table, numSymbols := c.numSymbols + 1 }, t₁, ?_,
    ⟨h.text, h.allocated, hholds, hentries, fun q hq => ?_, ?_⟩, rfl, ?_⟩
  · simp only [codeSymbolAdd, hinsert, Option.bind_eq_bind, Option.bind_some]
  · obtain ⟨x, hx, rfl⟩ := List.mem_map.mp hq
    rcases List.mem_cons.mp (hperm.mem_iff.mp hx) with rfl | hx
    · exact ⟨c.numSymbols, Nat.lt_succ_self _, rfl⟩
    · obtain ⟨i, hi, heq⟩ := h.addresses x.1 (List.mem_map.mpr ⟨x, hx, rfl⟩)
      exact ⟨i, Nat.lt_succ_of_lt hi, heq⟩
  · rw [hperm.length_eq, List.length_cons, h.count]
  · rw [← hsize]
    exact Table.find?_of_mem (t := ⟨t₁.inorder, hholds.ascending⟩) hmem

/-- A pending reference -/
theorem Refines.addRef (h : Refines calloc c c' t) {p : Ptr} {s : Symbol} {node : Node Symbol}
    (hfind : (t.inorder.find? fun x => x.2.name == name) = some (p, s))
    (hnode : c.symbolTable.nodes p = some node) (lineNum : Nat) :
    ∃ t₁, Refines calloc { c with
      symbolTable := c.symbolTable.set p { node with entry := symbolRef lineNum c.size s } }
        (c'.addRef s lineNum).1 t₁ := by
  obtain rfl : s.name = name := by simpa only [beq_iff_eq] using List.find?_some hfind
  have hupdate := h.update hfind hnode (symbolRef_name lineNum c'.size) c'.text
  rw [h.size]
  obtain ⟨text, allocated, table, count⟩ := c
  obtain rfl : text = c'.text := h.text
  exact hupdate

/-- A reference, and the symbol that the pointer leads to -/
theorem Refines.ref (hcalloc : Function.Injective calloc) (h : Refines calloc c c' t)
    (hfuel : Enough fuel c.numSymbols) (name : String) (lineNum : Nat) :
    ∃ c₁ p node t₁, codeSymbolRef calloc fuel c name lineNum = some (c₁, p) ∧
      c₁.symbolTable.nodes p = some node ∧
      node.entry = (Asm.codeSymbolRef c' name lineNum).2 ∧
      Refines calloc c₁ (Asm.codeSymbolRef c' name lineNum).1 t₁ ∧
      c₁.numSymbols ≤ c.numSymbols + 1 := by
  have hlookup := h.lookup hfuel name
  rcases codeSymbolRef_cases c' name lineNum with ⟨hnone, href⟩ | ⟨s, hs, hzero, href⟩ | ⟨s, hs, hne, href⟩
  · obtain ⟨c₁, t₁, hadd, h₁, hcount, hfind⟩ := h.add hcalloc hfuel hnone 0
    have hfound := h.find? name
    rw [hnone] at hfound
    rw [Option.map_eq_none_iff.mp hfound.symm] at hlookup
    obtain ⟨node, hnode, hentry⟩ :=
      h₁.holds.spelled.below.node_of_mem (List.mem_of_find?_eq_some hfind)
    obtain ⟨t₂, h₂⟩ := h₁.addRef hfind hnode lineNum
    rw [href]
    refine ⟨_, _, _, t₂, ?_, set_nodes_self, ?_, h₂, hcount.le⟩
    · simp only [codeSymbolRef, hlookup, Option.map_none, hadd, Option.bind_eq_bind,
        Option.bind_some, hnode, hentry, symbolAlloc_lineNum, if_true]
    · rw [h₁.size]
      rfl
  · obtain ⟨p, node, hfind, hnode, hentry⟩ := h.found hs
    rw [hfind] at hlookup
    obtain ⟨t₁, h₁⟩ := h.addRef hfind hnode lineNum
    rw [href]
    refine ⟨_, _, _, t₁, ?_, set_nodes_self, ?_, h₁, Nat.le_succ _⟩
    · simp only [codeSymbolRef, hlookup, Option.map_some, Option.bind_eq_bind, Option.bind_some,
        hnode, hentry, hzero, if_true]
    · rw [h.size]
      rfl
  · obtain ⟨p, node, hfind, hnode, hentry⟩ := h.found hs
    rw [hfind] at hlookup
    rw [href]
    refine ⟨c, p, node, t, ?_, hnode, hentry, h, Nat.le_succ _⟩
    simp only [codeSymbolRef, hlookup, Option.map_some, Option.bind_eq_bind, Option.bind_some, hnode,
      hentry, if_neg hne]

/-- A definition -/
theorem Refines.define (h : Refines calloc c c' t) {p : Ptr} {s : Symbol} {node : Node Symbol}
    (hfind : (t.inorder.find? fun x => x.2.name == name) = some (p, s))
    (hnode : c.symbolTable.nodes p = some node) (hentry : node.entry = s) (lineNum : Nat) :
    ∃ c₁ t₁, codeSymbolDefine c p lineNum = some c₁ ∧
      Refines calloc c₁ (Asm.codeSymbolDefine c' s lineNum) t₁ ∧ c₁.numSymbols = c.numSymbols := by
  obtain rfl : s.name = name := by simpa only [beq_iff_eq] using List.find?_some hfind
  have hkeeps : ∀ s : Symbol, (symbolDefine s lineNum c'.size c'.text).1.name = s.name := fun _ => rfl
  obtain ⟨t₁, h₁⟩ := h.update hfind hnode hkeeps (symbolDefine s lineNum c'.size c'.text).2
  refine ⟨_, t₁, ?_, h₁, ?_⟩
  · simp only [codeSymbolDefine, hnode, Option.bind_eq_bind, Option.bind_some, hentry, h.size, h.text]
  · rfl

theorem Refines.emit (h : Refines calloc c c' t) (w : Word) :
    Refines calloc (codeEmit c w) (Asm.codeEmit c' w) t := by
  refine ⟨?_, ?_, h.holds, h.entries, h.addresses, h.count⟩
  · rw [codeEmit, Asm.codeEmit, h.text]
  · rw [codeEmit, Asm.codeEmit, h.allocated, h.size]

/-! ## The two sessions -/

/-- A session with a tree of at most `n` symbols, and one with a table -/
def SessionRefines (calloc : Nat → Ptr) (n : Nat) (st : Session) (st' : Asm.Session) : Prop :=
  st.parser = st'.parser ∧ st.code.numSymbols ≤ n ∧ ∃ t, Refines calloc st.code st'.code t

variable {st : Session} {st' : Asm.Session} {n : Nat}

theorem refines_labelAction (hcalloc : Function.Injective calloc) (h : SessionRefines calloc n st st')
    (hfuel : Enough fuel n) (ident : String) :
    ∃ st₁, labelAction calloc fuel ident st = some ((Asm.labelAction ident st').1, st₁) ∧
      SessionRefines calloc (n + 1) st₁ (Asm.labelAction ident st').2 := by
  obtain ⟨hparser, hn, t, h⟩ := h
  have hfuel := hfuel.mono hn
  have hlookup := h.lookup hfuel ident
  cases hs : Asm.codeSymbolLookup st'.code ident with
  | none =>
    obtain ⟨c₁, t₁, hadd, h₁, hcount, -⟩ := h.add hcalloc hfuel hs st.parser.lineNum
    have hfound := h.find? ident
    rw [hs] at hfound
    rw [Option.map_eq_none_iff.mp hfound.symm] at hlookup
    have hcount' : c₁.numSymbols ≤ n + 1 := by omega
    refine ⟨{ st with code := c₁ }, ?_, ?_⟩
    · simp only [labelAction, hlookup, Option.map_none, Option.bind_eq_bind, Option.bind_some, hadd,
        Asm.labelAction, hs]
    · simp only [Asm.labelAction, hs]
      exact ⟨hparser, hcount', t₁, hparser ▸ h₁⟩
  | some s =>
    obtain ⟨p, node, hfind, hnode, hentry⟩ := h.found hs
    rw [hfind] at hlookup
    by_cases hline : s.lineNum = 0
    · obtain ⟨c₁, t₁, hdefine, h₁, hcount⟩ := h.define hfind hnode hentry st.parser.lineNum
      have hcount' : c₁.numSymbols ≤ n + 1 := by omega
      refine ⟨{ st with code := c₁ }, ?_, ?_⟩
      · simp only [labelAction, hlookup, Option.map_some, Option.bind_eq_bind, Option.bind_some,
          hnode, hentry, hline, ne_eq, not_true_eq_false, if_false, hdefine, Asm.labelAction, hs]
      · simp only [Asm.labelAction, hs, hline, ne_eq, not_true_eq_false, if_false]
        exact ⟨hparser, hcount', t₁, hparser ▸ h₁⟩
    · refine ⟨{ st with parser := parserError st.parser (redefinedMessage s.name s.lineNum) }, ?_, ?_⟩
      · simp only [labelAction, hlookup, Option.map_some, Option.bind_eq_bind, Option.bind_some,
          hnode, hentry, hline, ne_eq, not_false_eq_true, if_true, Asm.labelAction, hs]
      · simp only [Asm.labelAction, hs, hline, ne_eq, not_false_eq_true, if_true]
        exact ⟨by rw [hparser], Nat.le_succ_of_le hn, t, h⟩

theorem refines_instructionAction (hcalloc : Function.Injective calloc)
    (h : SessionRefines calloc n st st') (hfuel : Enough fuel n) (ins : Instruction) :
    ∃ st₁, instructionAction calloc fuel ins st = some st₁ ∧
      SessionRefines calloc (n + 1) st₁ (Asm.instructionAction ins st') := by
  obtain ⟨hparser, hn, t, h⟩ := h
  cases hident : ins.ident? with
  | none =>
    refine ⟨_, by rw [instructionAction, hident], ?_⟩
    rw [instructionAction_none hident st' 0]
    exact ⟨hparser, Nat.le_succ_of_le hn, t, h.emit _⟩
  | some ident =>
    obtain ⟨c₁, p, node, t₁, href, hnode, hentry, h₁, hcount⟩ :=
      h.ref hcalloc (hfuel.mono hn) ident st.parser.lineNum
    refine ⟨{ st with code := codeEmit c₁ (ins.encode node.entry.address) }, ?_, ?_⟩
    · simp only [instructionAction, hident, href, Option.bind_eq_bind, Option.bind_some, hnode]
    · have hcount' : c₁.numSymbols ≤ n + 1 := by omega
      rw [instructionAction_some hident, hentry]
      rw [hparser] at h₁ ⊢
      exact ⟨rfl, hcount', t₁, h₁.emit _⟩

theorem refines_instructionOpt (hcalloc : Function.Injective calloc)
    (h : SessionRefines calloc n st st') (hfuel : Enough fuel n) (ins : Option Instruction) :
    ∃ st₁, instructionOpt calloc fuel ins st = some st₁ ∧
      SessionRefines calloc (n + 1) st₁ (Asm.instructionOpt ins st') := by
  cases ins with
  | none =>
    obtain ⟨hparser, hn, hrefines⟩ := h
    exact ⟨st, rfl, hparser, Nat.le_succ_of_le hn, hrefines⟩
  | some ins => exact refines_instructionAction hcalloc h hfuel ins

theorem refines_parseLine (hcalloc : Function.Injective calloc) (h : SessionRefines calloc n st st')
    (hfuel : Enough fuel (n + 1)) (l : Line) :
    ∃ st₁, parseLine calloc fuel st l = some st₁ ∧
      SessionRefines calloc (n + 2) st₁ (Asm.parseLine l st') := by
  obtain ⟨hparser, hn, hrefines⟩ := h
  have hline : SessionRefines calloc n { st with parser := { st.parser with lineNum := l.lineNum } }
      { st' with parser := { st'.parser with lineNum := l.lineNum } } :=
    ⟨by rw [hparser], hn, hrefines⟩
  rw [parseLine, Asm.parseLine]
  cases l.label with
  | none =>
    obtain ⟨st₁, hrun, hparser₁, hn₁, hrefines₁⟩ :=
      refines_instructionOpt hcalloc hline (hfuel.mono (Nat.le_succ n)) l.instruction
    exact ⟨st₁, hrun, hparser₁, Nat.le_succ_of_le hn₁, hrefines₁⟩
  | some ident =>
    obtain ⟨st₁, hlabel, h₁⟩ :=
      refines_labelAction hcalloc hline (hfuel.mono (Nat.le_succ n)) ident
    simp only [hlabel, Option.bind_eq_bind, Option.bind_some]
    generalize Asm.labelAction ident { st' with parser := { st'.parser with lineNum := l.lineNum } } =
      result at h₁ ⊢
    obtain ⟨defined, st₁'⟩ := result
    cases defined with
    | false =>
      obtain ⟨hparser₁, hn₁, hrefines₁⟩ := h₁
      exact ⟨st₁, rfl, hparser₁, Nat.le_succ_of_le hn₁, hrefines₁⟩
    | true => exact refines_instructionOpt hcalloc h₁ hfuel l.instruction

/-- The lines that are left add at most two symbols each. -/
theorem refines_parseLines (hcalloc : Function.Injective calloc) (lines : List Line)
    (h : SessionRefines calloc n st st') (hfuel : Enough fuel (n + 2 * lines.length)) :
    ∃ st₁, parseLines calloc fuel lines st = some st₁ ∧
      SessionRefines calloc (n + 2 * lines.length) st₁ (Asm.parseLines lines st') := by
  induction lines generalizing st st' n with
  | nil => exact ⟨st, rfl, h⟩
  | cons l lines ih =>
    rw [List.length_cons] at hfuel ⊢
    obtain ⟨st₁, hline, h₁⟩ := refines_parseLine hcalloc h (hfuel.mono (by omega)) l
    have hcount : n + 2 + 2 * lines.length = n + 2 * (lines.length + 1) := by omega
    obtain ⟨st₂, hlines, h₂⟩ := ih h₁ (hcount ▸ hfuel)
    rw [hcount] at h₂
    refine ⟨st₂, ?_, h₂⟩
    rw [parseLines, List.foldlM_cons, hline]
    exact hlines

theorem refines_parserParse (hcalloc : Function.Injective calloc) (inputFile : String)
    (lines : List Line) (hfuel : Enough fuel (2 * lines.length)) :
    ∃ st, parserParse calloc fuel inputFile lines = some st ∧
      SessionRefines calloc (2 * lines.length) st (Asm.parserParse inputFile lines) := by
  have hstart : SessionRefines calloc 0 ⟨parserAlloc inputFile, codeAlloc⟩
      ⟨parserAlloc inputFile, Asm.codeAlloc⟩ :=
    ⟨rfl, Nat.le_refl 0, .nil, refines_codeAlloc⟩
  have hcount : 0 + 2 * lines.length = 2 * lines.length := Nat.zero_add _
  have hlines := refines_parseLines hcalloc lines hstart (hcount.symm ▸ hfuel)
  rw [hcount] at hlines
  exact hlines

/-- The walk over the tree checks the symbols in the order of the table. -/
theorem Refines.checkRefs (h : Refines calloc c c' t) (p : Parser) :
    Settles (codeCheckRefs c p) (Asm.codeCheckRefs c' p) := by
  refine settles_rbForeach h.holds.spelled ?_
  have hvisit : ∀ (xs : List (Ptr × Symbol)) (p : Parser), (∀ x ∈ xs, x ∈ t.inorder) →
      (xs.map Prod.fst).foldlM (fun p s => (c.symbolTable.nodes s).map fun node =>
        symbolCheckRefs node.entry p) p =
      some ((xs.map Prod.snd).foldl (fun p s => symbolCheckRefs s p) p) := by
    intro xs
    induction xs with
    | nil => exact fun _ _ => rfl
    | cons x xs ih =>
      intro p hxs
      obtain ⟨node, hnode, hentry⟩ :=
        h.holds.spelled.below.node_of_mem (hxs x List.mem_cons_self)
      simp only [List.map_cons, List.foldlM_cons, List.foldl_cons, hnode, Option.map_some,
        Option.bind_eq_bind, Option.bind_some, hentry]
      exact ih _ fun y hy => hxs y (List.mem_cons_of_mem _ hy)
  have hwalk := hvisit t.inorder p fun _ hx => hx
  rw [h.entries] at hwalk
  exact hwalk

end

/-! ## Whole files -/

section
variable {calloc : Nat → Ptr} {fuel : Nat}

/-- With the tree in storage a file is assembled to the same words, with the same errors in the same
order, wherever the symbols are. -/
theorem parserParse_in_storage (hcalloc : Function.Injective calloc) (inputFile : String)
    (lines : List Line) (hfuel : 2 * Nat.log 2 (2 * lines.length + 1) + 2 ≤ fuel) :
    ∃ st, parserParse calloc fuel inputFile lines = some st ∧
      st.code.text = (Asm.assemble inputFile lines).code.text ∧
      st.code.allocated = (Asm.assemble inputFile lines).code.allocated ∧
      st.parser = (Asm.parserParse inputFile lines).parser ∧
      Settles (codeCheckRefs st.code st.parser) (Asm.assemble inputFile lines).parser := by
  obtain ⟨st, hrun, hparser, -, t, hrefines⟩ := refines_parserParse hcalloc inputFile lines hfuel
  refine ⟨st, hrun, hrefines.text, hrefines.allocated, hparser, ?_⟩
  rw [hparser]
  exact hrefines.checkRefs _

/-- After any file the symbol table is a red-black tree in the order of `strcmp`, and a lookup takes
at most twice the logarithm of the number of symbols, and one turn more. It finds no address exactly where
there is no symbol of the name, and otherwise the one of that symbol. -/
theorem lookup_in_storage (hcalloc : Function.Injective calloc) (inputFile : String)
    (lines : List Line) (hfuel : 2 * Nat.log 2 (2 * lines.length + 1) + 2 ≤ fuel) :
    ∃ st t, parserParse calloc fuel inputFile lines = some st ∧
      Holds Symbol.name st.code.symbolTable t ∧ t.inorder.length = st.code.numSymbols ∧
      ∀ name, ∃ found, codeSymbolLookup (2 * Nat.log 2 (st.code.numSymbols + 1) + 1) st.code name =
          some found ∧
        (found = none ↔ Asm.codeSymbolLookup (Asm.parserParse inputFile lines).code name = none) ∧
        Asm.codeSymbolLookup (Asm.parserParse inputFile lines).code name =
          found.bind fun p => (st.code.symbolTable.nodes p).map Node.entry := by
  obtain ⟨st, hrun, -, -, t, hrefines⟩ := refines_parserParse hcalloc inputFile lines hfuel
  refine ⟨st, t, hrun, hrefines.holds, hrefines.count, fun name =>
    ⟨(t.inorder.find? fun x => x.2.name == name).map Prod.fst, ?_, ?_, ?_⟩⟩
  · have hheight := hrefines.holds.height_le
    rw [hrefines.count] at hheight
    exact rbFind_spec hrefines.holds (compares_nameCmp name) (Nat.lt_succ_of_le hheight)
  · rw [hrefines.find? name, Option.map_eq_none_iff, Option.map_eq_none_iff]
  · cases hs : Asm.codeSymbolLookup (Asm.parserParse inputFile lines).code name with
    | none =>
      have hfind := hrefines.find? name
      rw [hs] at hfind
      rw [Option.map_eq_none_iff.mp hfind.symm, Option.map_none, Option.bind_none]
    | some s =>
      obtain ⟨p, node, hfind, hnode, hentry⟩ := hrefines.found hs
      rw [hfind, Option.map_some, Option.bind_some, hnode, Option.map_some, hentry]

/-- A file with a forward reference -/
theorem parserParse_in_storage_two :
    ∃ st, parserParse id (2 * Nat.log 2 5 + 2) "a.rasm"
        [⟨1, some "main", some (.inst1a 15 "end")⟩, ⟨2, some "end", some (.inst0 22)⟩] = some st ∧
      st.code.text = (Asm.assemble "a.rasm"
        [⟨1, some "main", some (.inst1a 15 "end")⟩, ⟨2, some "end", some (.inst0 22)⟩]).code.text ∧
      st.code.allocated = (Asm.assemble "a.rasm"
        [⟨1, some "main", some (.inst1a 15 "end")⟩, ⟨2, some "end", some (.inst0 22)⟩]).code.allocated ∧
      st.parser = (Asm.parserParse "a.rasm"
        [⟨1, some "main", some (.inst1a 15 "end")⟩, ⟨2, some "end", some (.inst0 22)⟩]).parser ∧
      Settles (codeCheckRefs st.code st.parser) (Asm.assemble "a.rasm"
        [⟨1, some "main", some (.inst1a 15 "end")⟩, ⟨2, some "end", some (.inst0 22)⟩]).parser :=
  parserParse_in_storage Function.injective_id _ _ (Nat.le_refl _)

theorem lookup_in_storage_two :
    ∃ st t, parserParse id (2 * Nat.log 2 5 + 2) "a.rasm"
        [⟨1, some "main", some (.inst1a 15 "end")⟩, ⟨2, some "end", some (.inst0 22)⟩] = some st ∧
      Holds Symbol.name st.code.symbolTable t ∧ t.inorder.length = st.code.numSymbols ∧
      ∀ name, ∃ found, codeSymbolLookup (2 * Nat.log 2 (st.code.numSymbols + 1) + 1) st.code name =
          some found ∧
        (found = none ↔ Asm.codeSymbolLookup (Asm.parserParse "a.rasm"
          [⟨1, some "main", some (.inst1a 15 "end")⟩, ⟨2, some "end", some (.inst0 22)⟩]).code name =
            none) ∧
        Asm.codeSymbolLookup (Asm.parserParse "a.rasm"
          [⟨1, some "main", some (.inst1a 15 "end")⟩, ⟨2, some "end", some (.inst0 22)⟩]).code name =
            found.bind fun p => (st.code.symbolTable.nodes p).map Node.entry :=
  lookup_in_storage Function.injective_id _ _ (Nat.le_refl _)

end

end Rbml.Asm.SymbolTree
