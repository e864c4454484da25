import Rbml.Tree.Spells

/-!
# Rotations and writes in a spelled tree

A node that keeps its links may be written at any time (`At.write`). A rotation moves three links and
their parents at once. The node that goes up takes the place of the other one in the frames, and the
subtree between the two is given its new parent (`At.rotate`); the rest of the tree is not read.
-/

namespace Rbml.Tree

open Rbml.Lib.RedBlack
open Rbml.Lib.RedBlack.RBTree (join)
open Rbml.Asm.Storage (Ptr)

variable {α : Type}

/-! ## One node -/

section
variable {h : Heap α} {t near far : RBTree (Ptr × α)} {x : Ptr × α} {d : Side} {c : Color}
  {above : List (Frame (Ptr × α))}

theorem link_plug_congr {s : RBTree (Ptr × α)} (hlink : link s = link t) :
    link (plug s above) = link (plug t above) := by
  cases above with
  | nil => exact hlink
  | cons f above => exact link_plug_cons t

/-- The addresses at a node with two children are distinct. -/
theorem At.apart (hat : At h (join d c near x far) above) :
    x.1 ∉ addrs near ∧ x.1 ∉ addrs far ∧ x.1 ∉ addrsAbove above ∧
      (addrs near).Nodup ∧ (addrs far).Nodup ∧ (addrsAbove above).Nodup ∧
      (∀ q ∈ addrs near, q ∉ addrs far) ∧
      ∀ q, q ∈ addrs near ∨ q ∈ addrs far → q ∉ addrsAbove above := by
  have hnodup := (addrs_join_perm.append_right _).nodup_iff.mp hat.nodup
  obtain ⟨hjoin, habove, hjoinAbove⟩ := List.nodup_append.mp hnodup
  obtain ⟨hx, hpair⟩ := List.nodup_cons.mp hjoin
  obtain ⟨hnear, hfar, hnearFar⟩ := List.nodup_append.mp hpair
  rw [List.mem_append, not_or] at hx
  refine ⟨hx.1, hx.2, fun hxa => ?_, hnear, hfar, habove, fun q hqn hqf => ?_, fun q hq hqa => ?_⟩
  · exact hjoinAbove x.1 List.mem_cons_self x.1 hxa rfl
  · exact hnearFar q hqn q hqf rfl
  · exact hjoinAbove q (List.mem_cons_of_mem _ (List.mem_append.mpr hq)) q hqa rfl

/-- A node with another color and another entry -/
theorem At.write (hat : At h (join d c near x far) above) (c' : Color) (e : α) :
    At (h.set x.1 (nodeOn d c' (link near) e (link far) (parentOf above)))
      (join d c' near (x.1, e) far) above := by
  obtain ⟨hxnear, hxfar, hxabove, -⟩ := hat.apart
  obtain ⟨-, hnear, hfar⟩ := spells_join.mp hat.below
  have habove := hat.around
  rw [link_join] at habove
  have hother : ∀ q, q ≠ x.1 → (h.set x.1 (nodeOn d c' (link near) e (link far)
      (parentOf above))).nodes q = h.nodes q := fun q hq => set_nodes_of_ne hq
  refine ⟨?_, spells_join.mpr ⟨set_nodes_self, ?_, ?_⟩, ?_, ?_⟩
  · rw [set_root, hat.root]
    exact link_plug_congr (by rw [link_join, link_join])
  · exact hnear.frame fun q hq => hother q fun heq => hxnear (heq ▸ hq)
  · exact hfar.frame fun q hq => hother q fun heq => hxfar (heq ▸ hq)
  · rw [link_join]
    exact habove.frame fun q hq => hother q fun heq => hxabove (heq ▸ hq)
  · have hperm : (addrs (join d c' near (x.1, e) far)).Perm (addrs (join d c near x far)) :=
      (addrs_join_perm (x := (x.1, e))).trans (addrs_join_perm (x := x)).symm
    exact (hperm.append_right _).nodup_iff.mpr hat.nodup

/-- The write of a color -/
theorem At.setColor (hat : At h (join d c near x far) above) (c' : Color) :
    ∃ h', h.modify x.1 (·.setColor c') = some h' ∧
      Reshapes h (plug (join d c near x far) above) h' (plug (join d c' near x far) above) := by
  refine ⟨_, modify_of_node hat.node, at_plug.mpr ?_, inorder_plug_congr ?_, fun q hq => ?_⟩
  · rw [setColor_nodeOn]
    exact hat.write c' x.2
  · cases d <;> rfl
  · refine set_nodes_of_ne fun heq => hq (mem_addrs_plug.mpr (.inl ?_))
    exact mem_addrs_join.mpr (.inl heq)

end

/-! ## Three links -/

section
variable {h : Heap α} {above : List (Frame (Ptr × α))}

theorem adopt_spec {p : Option Ptr} (parent : Ptr)
    (hp : ∀ q, p = some q → ∃ node, h.nodes q = some node) :
    ∃ h', adopt p parent h = some h' ∧ h'.root = h.root ∧
      (∀ q, p ≠ some q → h'.nodes q = h.nodes q) ∧
      ∀ q node, p = some q → h.nodes q = some node →
        h'.nodes q = some (node.setParent (some parent)) := by
  cases p with
  | none => exact ⟨h, rfl, rfl, fun _ _ => rfl, fun _ _ hq => by cases hq⟩
  | some p =>
    obtain ⟨node, hnode⟩ := hp p rfl
    refine ⟨_, modify_of_node hnode, rfl, fun q hq => ?_, fun q node' hq hnode' => ?_⟩
    · exact set_nodes_of_ne fun heq => hq (heq ▸ rfl)
    · cases hq
      cases hnode.symm.trans hnode'
      exact set_nodes_self

/-- The node above tells the side of its subtree by the link on the left. -/
theorem replaceChild_spec {elm : Ptr} (tmp : Ptr) (habove : SpellsAbove h.nodes (some elm) above)
    (helm : elm ∉ addrsAbove above) :
    ∃ h', replaceChild (parentOf above) elm tmp h = some h' ∧
      (above ≠ [] → h'.root = h.root) ∧ (above = [] → h'.root = some tmp) ∧
      (∀ q, parentOf above ≠ some q → h'.nodes q = h.nodes q) ∧
      ∀ f rest, above = f :: rest → h'.nodes f.elem.1 =
        some (nodeOn f.side f.color (some tmp) f.elem.2 (link f.sibling) (parentOf rest)) := by
  cases above with
  | nil =>
    exact ⟨_, rfl, fun hne => absurd rfl hne, fun _ => rfl, fun _ _ => rfl, fun _ _ hf => by cases hf⟩
  | cons f rest =>
    obtain ⟨hnode, -, -⟩ := habove
    have hsibling : link f.sibling ≠ some elm := by
      intro hlink
      exact helm (List.mem_cons_of_mem _ (List.mem_append_left _ (mem_addrs_of_link hlink)))
    have hside : (if (nodeOn f.side f.color (some elm) f.elem.2 (link f.sibling)
        (parentOf rest)).left = some elm then Side.left else Side.right) = f.side := by
      cases f.side with
      | left => exact if_pos rfl
      | right => exact if_neg hsibling
    refine ⟨h.set f.elem.1 (nodeOn f.side f.color (some tmp) f.elem.2 (link f.sibling)
      (parentOf rest)), ?_, fun _ => rfl, fun hnil => (List.cons_ne_nil _ _ hnil).elim,
      fun q hq => ?_, ?_⟩
    · simp only [parentOf_cons, replaceChild, hnode, Option.bind_eq_bind, Option.bind_some, hside]
      rw [modify_of_node hnode, setChild_nodeOn]
    · exact set_nodes_of_ne fun heq => hq (heq ▸ rfl)
    · intro g rest' hcons
      cases hcons
      exact set_nodes_self

end

section
variable {h h' : Heap α} {near mid far : RBTree (Ptr × α)} {x y : Ptr × α} {d : Side} {c c' : Color}
  {above : List (Frame (Ptr × α))}

/-- What the rotation of `x` to the side `d` writes, when `y` is its child on the other side: both nodes,
the parent of the subtree between them, and the link of the node above or of the head. -/
structure Rotated (h h' : Heap α) (d : Side) (c : Color) (near : RBTree (Ptr × α)) (x : Ptr × α)
    (c' : Color) (mid : RBTree (Ptr × α)) (y : Ptr × α) (far : RBTree (Ptr × α))
    (above : List (Frame (Ptr × α))) : Prop where
  head : above = [] → h'.root = some y.1
  keepsHead : above ≠ [] → h'.root = h.root
  lower : h'.nodes x.1 = some (nodeOn d c (link near) x.2 (link mid) (some y.1))
  upper : h'.nodes y.1 = some (nodeOn d c' (some x.1) y.2 (link far) (parentOf above))
  inner : ∀ q node, link mid = some q → h.nodes q = some node →
    h'.nodes q = some (node.setParent (some x.1))
  outer : ∀ f rest, above = f :: rest → h'.nodes f.elem.1 =
    some (nodeOn f.side f.color (some y.1) f.elem.2 (link f.sibling) (parentOf rest))
  other : ∀ q, q ≠ x.1 → q ≠ y.1 → link mid ≠ some q → parentOf above ≠ some q →
    h'.nodes q = h.nodes q

/-- The distinct addresses around a rotation -/
theorem At.apart_rotate (hat : At h (join d c near x (join d c' mid y far)) above) :
    x.1 ≠ y.1 ∧ (∀ q, q = x.1 ∨ q = y.1 → q ∉ addrs near ∧ q ∉ addrs mid ∧ q ∉ addrs far ∧
      q ∉ addrsAbove above) ∧
    (∀ q ∈ addrs near, q ∉ addrs mid) ∧ (∀ q ∈ addrs mid, q ∉ addrs far) ∧
    (∀ q, q ∈ addrs near ∨ q ∈ addrs mid ∨ q ∈ addrs far → q ∉ addrsAbove above) ∧
    (addrs mid).Nodup ∧ (addrsAbove above).Nodup := by
  obtain ⟨hxnear, hxlow, hxabove, -, -, haboveNodup, hnearLow, hlowAbove⟩ := hat.apart
  obtain ⟨hymid, hyfar, -, hmidNodup, -, -, hmidFar, -⟩ := (at_join_far.mp hat).apart
  simp only [mem_addrs_join, not_or] at hxlow hnearLow hlowAbove
  obtain ⟨hxy, hxmid, hxfar⟩ := hxlow
  refine ⟨hxy, fun q hq => ?_, fun q hq => (hnearLow q hq).2.1, hmidFar, fun q hq => ?_, hmidNodup,
    haboveNodup⟩
  · rcases hq with rfl | rfl
    · exact ⟨hxnear, hxmid, hxfar, hxabove⟩
    · exact ⟨fun hq => (hnearLow _ hq).1 rfl, hymid, hyfar, hlowAbove _ (.inr (.inl rfl))⟩
  · rcases hq with hq | hq | hq
    · exact hlowAbove q (.inl hq)
    · exact hlowAbove q (.inr (.inr (.inl hq)))
    · exact hlowAbove q (.inr (.inr (.inr hq)))

theorem rbRotate_spec (hat : At h (join d c near x (join d c' mid y far)) above) :
    ∃ h', rbRotate d x.1 h = some h' ∧ Rotated h h' d c near x c' mid y far above := by
  obtain ⟨hxy, hpair, -, -, habove, -, -⟩ := hat.apart_rotate
  obtain ⟨-, hxmid, -, hxabove⟩ := hpair x.1 (.inl rfl)
  obtain ⟨-, hymid, -, hyabove⟩ := hpair y.1 (.inr rfl)
  obtain ⟨hx, -, hlow⟩ := spells_join.mp hat.below
  obtain ⟨hy, hmid, -⟩ := spells_join.mp hlow
  have haround := hat.around
  simp only [link_join] at hx haround
  have hlinkmid : ∀ q, q ∉ addrs mid → link mid ≠ some q := fun q hq hlink =>
    hq (mem_addrs_of_link hlink)
  have hlinkabove : ∀ q, q ∉ addrsAbove above → parentOf above ≠ some q := fun q hq hlink =>
    hq (mem_addrsAbove_of_parentOf hlink)
  -- the subtree in between changes its parent
  have hother₁ : ∀ q, q ≠ x.1 → (h.set x.1 (nodeOn d c (link near) x.2 (link mid)
      (parentOf above))).nodes q = h.nodes q := fun q hq => set_nodes_of_ne hq
  have hnode₁ : ∀ q, link mid = some q → q ≠ x.1 := fun q hq heq =>
    hxmid (heq ▸ mem_addrs_of_link hq)
  obtain ⟨h₂, hadopt, hroot₂, hother₂, hadopted⟩ := adopt_spec
    (h := h.set x.1 (nodeOn d c (link near) x.2 (link mid) (parentOf above))) (p := link mid) x.1
    fun q hq => by
      obtain ⟨node, hnode, -⟩ := hmid.node_of_link hq
      exact ⟨node, (hother₁ q (hnode₁ q hq)).trans hnode⟩
  have hx₂ : h₂.nodes x.1 = some (nodeOn d c (link near) x.2 (link mid) (parentOf above)) :=
    (hother₂ _ (hlinkmid _ hxmid)).trans set_nodes_self
  have hy₂ : h₂.nodes y.1 = some (nodeOn d c' (link mid) y.2 (link far) (some x.1)) :=
    ((hother₂ _ (hlinkmid _ hymid)).trans (hother₁ _ (Ne.symm hxy))).trans hy
  -- the node above, or the head, changes its child
  have hother₃ : ∀ q, q ≠ x.1 → q ≠ y.1 → link mid ≠ some q → (h₂.set y.1 (nodeOn d c' (link mid) y.2
      (link far) (parentOf above))).nodes q = h.nodes q := fun q hqx hqy hqm =>
    (set_nodes_of_ne hqy).trans ((hother₂ q hqm).trans (hother₁ q hqx))
  have haround₃ := haround.frame fun q hq => hother₃ q (fun heq => hxabove (heq ▸ hq))
    (fun heq => hyabove (heq ▸ hq)) (hlinkmid q fun hqm => habove q (.inr (.inl hqm)) hq)
  obtain ⟨h₄, hreplace, hrootCons, hrootNil, hother₄, hparent⟩ :=
    replaceChild_spec y.1 haround₃ hxabove
  have hy₄ : h₄.nodes y.1 = some (nodeOn d c' (link mid) y.2 (link far) (parentOf above)) :=
    (hother₄ _ (hlinkabove _ hyabove)).trans set_nodes_self
  have hx₅ : (h₄.set y.1 (nodeOn d c' (some x.1) y.2 (link far) (parentOf above))).nodes x.1 =
      some (nodeOn d c (link near) x.2 (link mid) (parentOf above)) :=
    (set_nodes_of_ne hxy).trans ((hother₄ _ (hlinkabove _ hxabove)).trans
      ((set_nodes_of_ne hxy).trans hx₂))
  have hlast : ∀ q, q ≠ x.1 → q ≠ y.1 → ((h₄.set y.1 (nodeOn d c' (some x.1) y.2 (link far)
      (parentOf above))).set x.1 (nodeOn d c (link near) x.2 (link mid) (some y.1))).nodes q =
        h₄.nodes q := fun q hqx hqy => (set_nodes_of_ne hqx).trans (set_nodes_of_ne hqy)
  have hrun : rbRotate d x.1 h =
      some ((h₄.set y.1 (nodeOn d c' (some x.1) y.2 (link far) (parentOf above))).set x.1
        (nodeOn d c (link near) x.2 (link mid) (some y.1))) := by
    simp only [rbRotate, hx, Option.bind_eq_bind, Option.bind_some, child_other_nodeOn, hy,
      child_nodeOn, modify_of_node hx, setChild_other_nodeOn, hadopt, hx₂, parent_nodeOn,
      modify_of_node hy₂, setParent_nodeOn, hreplace, modify_of_node hy₄, setChild_nodeOn,
      modify_of_node hx₅]
  refine ⟨_, hrun, hrootNil, fun hne => (hrootCons hne).trans hroot₂, set_nodes_self,
    (set_nodes_of_ne (Ne.symm hxy)).trans set_nodes_self, fun q node hq hnode => ?_,
    fun f rest hcons => ?_, fun q hqx hqy hqm hqa => ?_⟩
  · have hqmid := mem_addrs_of_link hq
    have hqy : q ≠ y.1 := fun heq => hymid (heq ▸ hqmid)
    rw [hlast q (hnode₁ q hq) hqy, hother₄ q (hlinkabove q (habove q (.inr (.inl hqmid)))),
      set_nodes_of_ne hqy, hadopted q node hq ((hother₁ q (hnode₁ q hq)).trans hnode)]
  · have hf : f.elem.1 ∈ addrsAbove above := by
      rw [hcons]
      exact List.mem_cons_self
    rw [hlast _ (fun heq => hxabove (heq ▸ hf)) fun heq => hyabove (heq ▸ hf), hparent f rest hcons]
  · rw [hlast q hqx hqy, hother₄ q hqa, hother₃ q hqx hqy hqm]

/-- The rotation of a node to the side `d`, with a child on the other side -/
theorem At.rotate (hat : At h (join d c near x (join d c' mid y far)) above) :
    ∃ h', rbRotate d x.1 h = some h' ∧
      Reshapes h (plug (join d c near x (join d c' mid y far)) above) h'
        (plug (join d c' (join d c near x mid) y far) above) := by
  obtain ⟨hxy, hpair, hnearMid, hmidFar, habove, hmidNodup, haboveNodup⟩ := hat.apart_rotate
  obtain ⟨hxnear, hxmid, hxfar, hxabove⟩ := hpair x.1 (.inl rfl)
  obtain ⟨hynear, hymid, hyfar, hyabove⟩ := hpair y.1 (.inr rfl)
  obtain ⟨h', hrun, hrotated⟩ := rbRotate_spec hat
  obtain ⟨-, hnear, hlow⟩ := spells_join.mp hat.below
  obtain ⟨-, hmid, hfar⟩ := spells_join.mp hlow
  have hother : ∀ q, q ≠ x.1 → q ≠ y.1 → (q ∈ addrs mid → link mid ≠ some q) →
      (q ∈ addrsAbove above → parentOf above ≠ some q) → h'.nodes q = h.nodes q := by
    intro q hqx hqy hqm hqa
    refine hrotated.other q hqx hqy (fun hlink => ?_) fun hlink => ?_
    · exact hqm (mem_addrs_of_link hlink) hlink
    · exact hqa (mem_addrsAbove_of_parentOf hlink) hlink
  have haway : ∀ q, q ≠ x.1 → q ≠ y.1 → q ∉ addrs mid → q ∉ addrsAbove above →
      h'.nodes q = h.nodes q := fun q hqx hqy hqm hqa =>
    hother q hqx hqy (fun h => absurd h hqm) fun h => absurd h hqa
  have hinorder := RBTree.inorder_rotate d c c' near x mid y far
  refine ⟨h', hrun, at_plug.mpr ⟨?_, spells_join.mpr ⟨?_, spells_join.mpr ⟨hrotated.lower, ?_, ?_⟩, ?_⟩,
    ?_, ?_⟩, inorder_plug_congr hinorder, fun q hq => ?_⟩
  · cases above with
    | nil =>
      rw [hrotated.head rfl, plug_nil, link_join]
    | cons f above =>
      rw [hrotated.keepsHead (List.cons_ne_nil _ _), hat.root]
      exact link_plug_cons _
  · rw [link_join]
    exact hrotated.upper
  · refine hnear.frame fun q hq => haway q ?_ ?_ (hnearMid q hq) (habove q (.inl hq))
    · exact fun heq => hxnear (heq ▸ hq)
    · exact fun heq => hynear (heq ▸ hq)
  · refine hmid.adopted hmidNodup hrotated.inner fun q hq hlink => hother q ?_ ?_ (fun _ => hlink) ?_
    · exact fun heq => hxmid (heq ▸ hq)
    · exact fun heq => hymid (heq ▸ hq)
    · exact fun hqa => absurd hqa (habove q (.inr (.inl hq)))
  · refine hfar.frame fun q hq => haway q ?_ ?_ (fun hqm => hmidFar q hqm hq)
      (habove q (.inr (.inr hq)))
    · exact fun heq => hxfar (heq ▸ hq)
    · exact fun heq => hyfar (heq ▸ hq)
  · rw [link_join]
    have haround := hat.around
    cases above with
    | nil => trivial
    | cons f above =>
      refine haround.replaced haboveNodup (hrotated.outer f above rfl) fun q hq hqf => ?_
      refine hother q (fun heq => hxabove (heq ▸ hq)) (fun heq => hyabove (heq ▸ hq)) ?_ ?_
      · exact fun hqm => absurd hq (habove q (.inr (.inl hqm)))
      · intro _ hlink
        cases hlink
        exact hqf rfl
  · have hsame : addrs (join d c' (join d c near x mid) y far) =
        addrs (join d c near x (join d c' mid y far)) := by
      rw [addrs, addrs, hinorder]
    rw [hsame]
    exact hat.nodup
  · simp only [mem_addrs_plug, mem_addrs_join, not_or] at hq
    obtain ⟨⟨hqx, -, hqy, hqm, -⟩, hqa⟩ := hq
    exact haway q hqx hqy hqm hqa

end

end Rbml.Tree
