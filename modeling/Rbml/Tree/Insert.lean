import Rbml.Tree.Color

/-!
# `RB_INSERT` and `RB_FIND`

A comparison that agrees with the order of a key leads both loops down the way of `seek`. The new
node becomes a red leaf at the empty place where the way ends, and `RB_INSERT_COLOR` does the rest
(`rbInsert_new`). An element with the key of another one is not inserted (`rbInsert_old`).

What an insertion keeps is that the heap holds a red-black tree in ascending order (`Holds`). Its
height bounds the turns of every loop, so that twice the logarithm of the number of elements does.
-/

namespace Rbml.Tree

open Rbml.Lib
open Rbml.Lib.RedBlack
open Rbml.Lib.RedBlack.RBTree (join)
open Rbml.Asm.Storage (Ptr)

variable {α κ : Type} [LinearOrder κ]

/-- The sign of a comparison with an element of key `k` -/
def Compares (key : α → κ) (cmp : α → Int) (k : κ) : Prop :=
  ∀ e, (cmp e < 0 ↔ k < key e) ∧ (0 < cmp e ↔ key e < k)

/-- The heap holds a red-black tree in ascending order of the key. -/
structure Holds (key : α → κ) (h : Heap α) (t : RBTree (Ptr × α)) : Prop where
  spelled : At h t []
  ascending : t.inorder.Pairwise fun a b => key a.2 < key b.2
  black : t.color = .black
  balanced : ∃ n, t.Balanced n

/-- The side of the nearest frame is the one that a comparison tells. -/
def Agrees (comp : Int) (above : List (Frame (Ptr × α))) : Prop :=
  ∀ f rest, above = f :: rest → (if comp < 0 then Side.left else Side.right) = f.side

section
variable {key : α → κ} {cmp : α → Int} {k : κ} {h : Heap α} {t : RBTree (Ptr × α)}
  {parent : Option Ptr} {fuel : Nat}

/-! ## The ways down -/

theorem rbFind_loop (hcmp : Compares key cmp k) (hspells : Spells h.nodes parent t)
    (above : List (Frame (Ptr × α))) (hfuel : t.height < fuel) :
    loop (fun _ => findTurn cmp h) fuel (link t) =
      some (link (seek (fun x : Ptr × α => key x.2) k t above).1) := by
  induction t generalizing parent fuel above with
  | nil =>
    obtain ⟨fuel, rfl⟩ := Nat.exists_eq_add_of_lt hfuel
    exact loop_inr rfl
  | node c l x r ihl ihr =>
    obtain ⟨hnode, hl, hr⟩ := hspells
    obtain ⟨hlt, hgt⟩ := hcmp x.2
    rw [RBTree.height] at hfuel
    obtain ⟨fuel, rfl⟩ : ∃ n, fuel = n + 1 := ⟨fuel - 1, by omega⟩
    simp only [seek]
    by_cases hleft : k < key x.2
    · have hturn : findTurn cmp h (some x.1) = some (.inl (link l)) := by
        simp only [findTurn, hnode, Option.bind_eq_bind, Option.bind_some, if_pos (hlt.mpr hleft)]
      rw [if_pos hleft]
      exact (loop_inl hturn).trans (ihl hl _ (by omega))
    · have hnlt : ¬ cmp x.2 < 0 := fun hneg => hleft (hlt.mp hneg)
      by_cases hright : key x.2 < k
      · have hturn : findTurn cmp h (some x.1) = some (.inl (link r)) := by
          simp only [findTurn, hnode, Option.bind_eq_bind, Option.bind_some, if_neg hnlt,
            if_pos (hgt.mpr hright)]
        rw [if_neg hleft, if_pos hright]
        exact (loop_inl hturn).trans (ihr hr _ (by omega))
      · have hngt : ¬ 0 < cmp x.2 := fun hpos => hright (hgt.mp hpos)
        have hturn : findTurn cmp h (some x.1) = some (.inr (some x.1)) := by
          simp only [findTurn, hnode, Option.bind_eq_bind, Option.bind_some, if_neg hnlt,
            if_neg hngt]
        rw [if_neg hleft, if_neg hright]
        exact loop_inr hturn

/-- The loop of `RB_INSERT` ends at an element, or below the last node of the way with the side of its
comparison. -/
theorem rbInsert_loop (hcmp : Compares key cmp k) {above : List (Frame (Ptr × α))} {comp : Int}
    (hspells : Spells h.nodes parent t) (hagrees : Agrees comp above) (hfuel : t.height < fuel) :
    ∃ place, loop (fun _ => insertTurn cmp h) fuel (link t, parentOf above, comp) = some place ∧
      (∀ x, (seek (fun x : Ptr × α => key x.2) k t above).1.elem? = some x → place = .inl x.1) ∧
      ((seek (fun x : Ptr × α => key x.2) k t above).1 = .nil → ∃ comp',
        place = .inr (parentOf (seek (fun x : Ptr × α => key x.2) k t above).2, comp') ∧
          Agrees comp' (seek (fun x : Ptr × α => key x.2) k t above).2) := by
  induction t generalizing parent fuel above comp with
  | nil =>
    obtain ⟨fuel, rfl⟩ := Nat.exists_eq_add_of_lt hfuel
    exact ⟨_, loop_inr rfl, fun x hx => (Option.some_ne_none x hx.symm).elim,
      fun _ => ⟨comp, rfl, hagrees⟩⟩
  | node c l x r ihl ihr =>
    obtain ⟨hnode, hl, hr⟩ := hspells
    obtain ⟨hlt, hgt⟩ := hcmp x.2
    rw [RBTree.height] at hfuel
    obtain ⟨fuel, rfl⟩ : ∃ n, fuel = n + 1 := ⟨fuel - 1, by omega⟩
    simp only [seek]
    by_cases hleft : k < key x.2
    · have hneg := hlt.mpr hleft
      have hturn : insertTurn cmp h (some x.1, parentOf above, comp) =
          some (.inl (link l, some x.1, cmp x.2)) := by
        simp only [insertTurn, hnode, Option.bind_eq_bind, Option.bind_some, if_pos hneg]
      have hside : Agrees (cmp x.2) (⟨.left, c, x, r⟩ :: above) := by
        intro f rest hcons
        cases hcons
        exact if_pos hneg
      have hfuel : l.height < fuel := by omega
      obtain ⟨place, hloop, hplace⟩ := ihl hl hside hfuel
      rw [if_pos hleft]
      exact ⟨place, (loop_inl hturn).trans hloop, hplace⟩
    · have hnlt : ¬ cmp x.2 < 0 := fun hneg => hleft (hlt.mp hneg)
      by_cases hright : key x.2 < k
      · have hturn : insertTurn cmp h (some x.1, parentOf above, comp) =
            some (.inl (link r, some x.1, cmp x.2)) := by
          simp only [insertTurn, hnode, Option.bind_eq_bind, Option.bind_some, if_neg hnlt,
            if_pos (hgt.mpr hright)]
        have hside : Agrees (cmp x.2) (⟨.right, c, x, l⟩ :: above) := by
          intro f rest hcons
          cases hcons
          exact if_neg hnlt
        have hfuel : r.height < fuel := by omega
        obtain ⟨place, hloop, hplace⟩ := ihr hr hside hfuel
        rw [if_neg hleft, if_pos hright]
        exact ⟨place, (loop_inl hturn).trans hloop, hplace⟩
      · have hngt : ¬ 0 < cmp x.2 := fun hpos => hright (hgt.mp hpos)
        have hturn : insertTurn cmp h (some x.1, parentOf above, comp) = some (.inr (.inl x.1)) := by
          simp only [insertTurn, hnode, Option.bind_eq_bind, Option.bind_some, if_neg hnlt,
            if_neg hngt]
        rw [if_neg hleft, if_neg hright]
        refine ⟨_, loop_inr hturn, fun y hy => ?_, fun hnil => ?_⟩
        · cases hy
          rfl
        · cases hnil

end

/-! ## A new leaf -/

section
variable {key : α → κ} {h : Heap α} {t : RBTree (Ptr × α)} {above : List (Frame (Ptr × α))} {elm : Ptr}
  {node : Node α} {comp : Int}

/-- A node that is put at an empty place -/
theorem attach_spec (hat : At h .nil above) (hnode : h.nodes elm = some node)
    (helm : elm ∉ addrsAbove above) (hagrees : Agrees comp above) :
    ∃ h₁ h', rbSet elm (parentOf above) h = some h₁ ∧ linkElm (parentOf above) comp elm h₁ = some h' ∧
      At h' (.node .red .nil (elm, node.entry) .nil) above ∧
      ∀ q, q ≠ elm → q ∉ addrsAbove above → h'.nodes q = h.nodes q := by
  obtain ⟨h₁, hset, helm₁, hroot, hother⟩ : ∃ h₁, rbSet elm (parentOf above) h = some h₁ ∧
      h₁.nodes elm = some ⟨node.entry, none, none, parentOf above, .red⟩ ∧ h₁.root = h.root ∧
      ∀ q, q ≠ elm → h₁.nodes q = h.nodes q :=
    ⟨_, modify_of_node hnode, set_nodes_self, rfl, fun q hq => set_nodes_of_ne hq⟩
  have haround := hat.around.frame fun q hq => hother q fun heq => helm (heq ▸ hq)
  have hnodup : (addrs (.node .red .nil (elm, node.entry) .nil) ++ addrsAbove above).Nodup :=
    List.nodup_cons.mpr ⟨helm, hat.nodup⟩
  cases above with
  | nil =>
    exact ⟨h₁, _, hset, rfl, ⟨rfl, ⟨helm₁, trivial, trivial⟩, trivial, hnodup⟩,
      fun q hq _ => hother q hq⟩
  | cons f above =>
    have hf : f.elem.1 ≠ elm := fun heq => helm (heq ▸ List.mem_cons_self)
    have hlink : linkElm (parentOf (f :: above)) comp elm h₁ = some (h₁.set f.elem.1
        (nodeOn f.side f.color (some elm) f.elem.2 (link f.sibling) (parentOf above))) := by
      rw [parentOf_cons, linkElm, modify_of_node haround.1, hagrees f above rfl, setChild_nodeOn]
    refine ⟨h₁, _, hset, hlink, ⟨?_, ⟨?_, trivial, trivial⟩, ?_, hnodup⟩, fun q hq hqa => ?_⟩
    · rw [set_root, hroot, hat.root]
      exact link_plug_cons _
    · rw [set_nodes_of_ne (Ne.symm hf), helm₁]
      rfl
    · exact haround.replaced (List.nodup_append.mp hat.nodup).2.1 set_nodes_self
        fun q _ hq => set_nodes_of_ne hq
    · have hqf : q ≠ f.elem.1 := fun heq => hqa (heq ▸ List.mem_cons_self)
      rw [set_nodes_of_ne hqf, hother q hq]

end

/-! ## Insertion and lookup -/

section
variable {key : α → κ} {h : Heap α} {t : RBTree (Ptr × α)} {elm : Ptr} {node : Node α} {fuel : Nat}
  {cmp : α → α → Int}

/-- Twice the logarithm of the number of elements bounds the height. -/
theorem Holds.height_le (hholds : Holds key h t) : t.height ≤ 2 * Nat.log 2 (t.inorder.length + 1) := by
  obtain ⟨n, hn⟩ := hholds.balanced
  exact RBTree.height_le_log hn hholds.black

theorem rbFind_spec {cmp : α → Int} {k : κ} (hholds : Holds key h t) (hcmp : Compares key cmp k)
    (hfuel : t.height < fuel) :
    rbFind cmp fuel h = some ((t.inorder.find? fun x => key x.2 == k).map Prod.fst) := by
  have hfind := seek_elem?_eq_find? (fun x : Ptr × α => key x.2) k hholds.ascending []
  have hlink : ∀ s : RBTree (Ptr × α), link s = s.elem?.map Prod.fst := by
    intro s
    cases s <;> rfl
  have hroot : h.root = link t := hholds.spelled.root
  rw [rbFind, hroot, rbFind_loop hcmp hholds.spelled.below [] hfuel, hlink, hfind]

/-- What the way down finds is what the walk has under the key. -/
theorem Holds.seek_eq_nil (hholds : Holds key h t) {k : κ} :
    (seek (fun x : Ptr × α => key x.2) k t []).1 = .nil ↔
      (t.inorder.find? fun x => key x.2 == k) = none := by
  rw [← seek_elem?_eq_find? (fun x : Ptr × α => key x.2) k hholds.ascending []]
  cases (seek (fun x : Ptr × α => key x.2) k t []).1 <;> simp [RBTree.elem?]

theorem rbInsert_new (hholds : Holds key h t) (hcmp : ∀ e, Compares key (cmp e) (key e))
    (hnode : h.nodes elm = some node) (helm : elm ∉ addrs t)
    (hnew : (t.inorder.find? fun x => key x.2 == key node.entry) = none)
    (hfuel : t.height + 2 ≤ fuel) :
    ∃ h' t', rbInsert cmp fuel elm h = some (h', none) ∧ Holds key h' t' ∧
      t'.inorder = Table.insertEntry (fun x => key x.2) (elm, node.entry) t.inorder ∧
      ∀ q, q ∉ addrs t' → h'.nodes q = h.nodes q := by
  have hdown : t.height < fuel := by omega
  obtain ⟨place, hloop, -, hplace⟩ := @rbInsert_loop α κ _ key (cmp node.entry) (key node.entry) h t
    none fuel (hcmp node.entry) [] 0 hholds.spelled.below (fun f rest hcons => by cases hcons) hdown
  have hempty := hholds.seek_eq_nil.mpr hnew
  obtain ⟨comp, rfl, hagrees⟩ := hplace hempty
  have hplug := plug_seek (fun x : Ptr × α => key x.2) (key node.entry) t []
  have hwalk := insertEntry_of_seek (fun x : Ptr × α => key x.2) hholds.ascending
    (a := (elm, node.entry)) hempty
  obtain ⟨n, hn⟩ := hholds.balanced
  have hroot : BalancedAbove ([] : List (Frame (Ptr × α))) n := trivial
  obtain ⟨m, hm, habove⟩ := balanced_seek (fun x : Ptr × α => key x.2) (key node.entry) hn hroot
    fun hred => by rw [hholds.black] at hred; cases hred
  have hlength := length_seek_le (fun x : Ptr × α => key x.2) (key node.entry) t []
  rw [hempty] at hplug hm
  cases hm
  generalize (seek (fun x : Ptr × α => key x.2) (key node.entry) t []).2 = above at *
  have hat : At h .nil above := at_plug.mp (hplug ▸ hholds.spelled)
  have helm' : elm ∉ addrsAbove above := by
    intro hmem
    refine helm ?_
    rw [show t = plug .nil above from hplug.symm]
    exact mem_addrs_plug.mpr (.inr hmem)
  obtain ⟨h₁, h₂, hset, hlink, hat₂, hother⟩ := attach_spec hat hnode helm' hagrees
  have hfixing : Fixing (.node .red .nil (elm, node.entry) .nil, above) :=
    ⟨rfl, 0, ⟨rfl, rfl, rfl, rfl⟩, habove⟩
  have hroom : above.length / 2 + 2 ≤ fuel := by
    rw [List.length_nil] at hlength
    omega
  obtain ⟨h', t', hcolor, hreshapes, hblack, hbalanced⟩ := rbInsertColor_spec hat₂ rfl hfixing hroom
  have hinorder : t'.inorder =
      Table.insertEntry (fun x => key x.2) (elm, node.entry) t.inorder := by
    simp only [before, after, List.nil_append, List.append_nil] at hwalk
    rw [hreshapes.inorder, inorder_plug, ← hwalk]
    simp only [RBTree.inorder, List.nil_append, List.append_assoc, List.singleton_append]
  refine ⟨h', t', ?_, ⟨hreshapes.spelled, ?_, hblack, hbalanced⟩, hinorder, fun q hq => ?_⟩
  · have hroot : h.root = link t := hholds.spelled.root
    have hloop : loop (fun _ => insertTurn (cmp node.entry) h) fuel (h.root, none, 0) =
        some (.inr (parentOf above, comp)) := hroot ▸ hloop
    simp only [rbInsert, hnode, Option.bind_eq_bind, Option.bind_some, hloop, hset, hlink, hcolor]
  · rw [hinorder]
    exact Table.insertEntry_ascending (elm, node.entry) hholds.ascending
  · have hsame : addrs t' = addrs (plug (.node .red .nil (elm, node.entry) .nil) above) := by
      rw [addrs, addrs, hreshapes.inorder]
    rw [hsame] at hq
    rw [hreshapes.frame q hq]
    simp only [mem_addrs_plug, not_or] at hq
    exact hother q (fun heq => hq.1 (heq ▸ List.mem_singleton_self _)) hq.2

theorem rbInsert_old {x : Ptr × α} (hholds : Holds key h t)
    (hcmp : ∀ e, Compares key (cmp e) (key e)) (hnode : h.nodes elm = some node)
    (hold : t.inorder.find? (fun x => key x.2 == key node.entry) = some x)
    (hfuel : t.height < fuel) : rbInsert cmp fuel elm h = some (h, some x.1) := by
  obtain ⟨place, hloop, hplace, -⟩ := @rbInsert_loop α κ _ key (cmp node.entry) (key node.entry) h t
    none fuel (hcmp node.entry) [] 0 hholds.spelled.below (fun f rest hcons => by cases hcons) hfuel
  have hfound := hplace x (by rw [seek_elem?_eq_find? _ _ hholds.ascending, hold])
  have hroot : h.root = link t := hholds.spelled.root
  have hloop : loop (fun _ => insertTurn (cmp node.entry) h) fuel (h.root, none, 0) =
      some (.inl x.1) := by
    rw [hroot, ← hfound]
    exact hloop
  simp only [rbInsert, hnode, Option.bind_eq_bind, Option.bind_some, hloop]

/-! ## Writes of entries -/

/-- A node that is not in the tree may be written. -/
theorem Holds.set_fresh (hholds : Holds key h t) (helm : elm ∉ addrs t) :
    Holds key (h.set elm node) t := by
  have hother : ∀ q ∈ addrs t, (h.set elm node).nodes q = h.nodes q := fun q hq =>
    set_nodes_of_ne fun heq => helm (heq ▸ hq)
  exact ⟨⟨hholds.spelled.root, hholds.spelled.below.frame hother, trivial, hholds.spelled.nodup⟩,
    hholds.ascending, hholds.black, hholds.balanced⟩

/-- The node of an element -/
theorem Spells.node_of_mem {nodes : Ptr → Option (Node α)} {parent : Option Ptr} {x : Ptr × α}
    (hspells : Spells nodes parent t) (hx : x ∈ t.inorder) :
    ∃ node, nodes x.1 = some node ∧ node.entry = x.2 := by
  induction t generalizing parent with
  | nil => cases hx
  | node c l y r ihl ihr =>
    obtain ⟨hnode, hl, hr⟩ := hspells
    rcases List.mem_append.mp hx with hx | hx
    · exact ihl hl hx
    · rcases List.mem_cons.mp hx with rfl | hx
      · exact ⟨_, hnode, rfl⟩
      · exact ihr hr hx

theorem Spells.map {nodes nodes' : Ptr → Option (Node α)} {parent : Option Ptr} {f : Ptr × α → Ptr × α}
    (hspells : Spells nodes parent t) (hf : ∀ x, (f x).1 = x.1)
    (hnodes : ∀ x ∈ t.inorder, ∀ node, nodes x.1 = some node → node.entry = x.2 →
      nodes' x.1 = some { node with entry := (f x).2 }) : Spells nodes' parent (t.map f) := by
  have hlink : ∀ s : RBTree (Ptr × α), link (s.map f) = link s := by
    intro s
    cases s with
    | nil => rfl
    | node c l x r => exact congrArg some (hf x)
  induction t generalizing parent with
  | nil => trivial
  | node c l x r ihl ihr =>
    obtain ⟨hnode, hl, hr⟩ := hspells
    simp only [RBTree.inorder, List.mem_append, List.mem_cons] at hnodes
    refine ⟨?_, ?_, ?_⟩
    · rw [hf, hlink, hlink]
      exact hnodes x (.inr (.inl rfl)) _ hnode rfl
    · rw [hf]
      exact ihl hl fun y hy => hnodes y (.inl hy)
    · rw [hf]
      exact ihr hr fun y hy => hnodes y (.inr (.inr hy))

/-- The write of an entry under its key -/
theorem Holds.update {x : Ptr × α} {k : κ} {g : α → α} (hholds : Holds key h t)
    (hg : ∀ e, key (g e) = key e) (hx : (t.inorder.find? fun x => key x.2 == k) = some x)
    (hnode : h.nodes x.1 = some node) :
    Holds key (h.set x.1 { node with entry := g x.2 })
      (t.map fun y => if key y.2 = k then (y.1, g y.2) else y) := by
  obtain ⟨hroot, hbelow, -, hnodup⟩ := hholds.spelled
  have hmem : x ∈ t.inorder := List.mem_of_find?_eq_some hx
  have hkey : key x.2 = k := by simpa only [beq_iff_eq] using List.find?_some hx
  have hunique : ∀ y ∈ t.inorder, key y.2 = k → y = x := by
    intro y hy hyk
    have hfind := Table.find?_of_mem (t := ⟨t.inorder, hholds.ascending⟩) hy
    rw [hyk] at hfind
    exact Option.some.inj (hfind.symm.trans hx)
  have haddr : ∀ y ∈ t.inorder, y.1 = x.1 → y = x := by
    intro y hy hyx
    rw [addrsAbove, List.append_nil] at hnodup
    exact List.inj_on_of_nodup_map hnodup hy hmem hyx
  have hfst : ∀ y : Ptr × α, (if key y.2 = k then (y.1, g y.2) else y).1 = y.1 := by
    intro y
    split <;> rfl
  have hsnd : ∀ y : Ptr × α, key (if key y.2 = k then (y.1, g y.2) else y).2 = key y.2 := by
    intro y
    split
    · exact hg y.2
    · rfl
  have haddrs : addrs (t.map fun y => if key y.2 = k then (y.1, g y.2) else y) = addrs t := by
    rw [addrs, RBTree.inorder_map, List.map_map]
    exact List.map_congr_left fun y _ => hfst y
  refine ⟨⟨?_, hbelow.map hfst fun y hy node' hnode' hentry => ?_, trivial, ?_⟩, ?_, ?_, ?_⟩
  · rw [set_root, hroot]
    cases t with
    | nil => rfl
    | node c l y r => exact congrArg some (hfst y).symm
  · by_cases hyx : y = x
    · subst hyx
      cases hnode.symm.trans hnode'
      rw [set_nodes_self, if_pos hkey]
    · rw [set_nodes_of_ne fun heq => hyx (haddr y hy heq), hnode',
        if_neg fun hyk => hyx (hunique y hy hyk), ← hentry]
  · rw [haddrs]
    exact hnodup
  · rw [RBTree.inorder_map]
    exact List.pairwise_map.mpr (hholds.ascending.imp fun {a b} hab => by rwa [hsnd, hsnd])
  · rw [RBTree.color_map]
    exact hholds.black
  · obtain ⟨n, hn⟩ := hholds.balanced
    exact ⟨n, RBTree.balanced_map hn⟩

end

end Rbml.Tree
