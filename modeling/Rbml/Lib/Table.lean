import Mathlib.Data.List.Basic
import Mathlib.Data.List.Pairwise
import Mathlib.Data.Set.Function
import Mathlib.Order.Lattice

/-!
# Ordered tables

A table keeps entries in strictly ascending order of a key that each entry carries, which is what
an in-order walk of a balanced search tree shows. Order makes keys distinct, so a lookup decides
membership (`find?_eq_some_iff`) and the three operations are known by the lookups they leave
behind: `find?_insert`, `find?_update`. The effect of an insertion on the walk is stated up to
permutation (`insert_perm`). A table whose entries are under other keys keeps up with each operation
(`Rekeys`).

`flatMap_filter_perm` is the accounting law: the items of a list, collected entry by entry under
the key they name, are the items that name some entry.
-/

namespace Rbml.Lib

variable {κ α β γ : Type*} [LinearOrder κ]

/-- Entries in strictly ascending order of `key`. -/
structure Table (key : α → κ) where
  entries : List α
  ascending : entries.Pairwise (fun a b => key a < key b)

namespace Table

variable {key : α → κ}

/-- The table with no entry -/
def empty : Table key := ⟨[], .nil⟩

/-- The entry under a key -/
def find? (t : Table key) (k : κ) : Option α := t.entries.find? (fun a => key a == k)

/-- The walk with one more entry: before the first entry that is not smaller, and nowhere when the
key is taken. -/
def insertEntry (key : α → κ) (a : α) : List α → List α
  | [] => [a]
  | b :: bs =>
    if key a < key b then a :: b :: bs
    else if key a = key b then b :: bs
    else b :: insertEntry key a bs

theorem mem_insertEntry {a b : α} {bs : List α} (h : b ∈ insertEntry key a bs) :
    b = a ∨ b ∈ bs := by
  induction bs with
  | nil => exact Or.inl (List.mem_singleton.mp h)
  | cons c cs ih =>
    simp only [insertEntry] at h
    split at h
    · exact List.mem_cons.mp h
    · split at h
      · exact Or.inr h
      · rcases List.mem_cons.mp h with rfl | h
        · exact Or.inr List.mem_cons_self
        · exact (ih h).imp id (List.mem_cons_of_mem _)

theorem insertEntry_ascending (a : α) {bs : List α}
    (h : bs.Pairwise (fun x y => key x < key y)) :
    (insertEntry key a bs).Pairwise (fun x y => key x < key y) := by
  induction bs with
  | nil => exact List.pairwise_singleton _ _
  | cons b bs ih =>
    obtain ⟨hb, hbs⟩ := List.pairwise_cons.mp h
    simp only [insertEntry]
    split
    next hlt =>
      refine List.pairwise_cons.mpr ⟨fun c hc => ?_, h⟩
      rcases List.mem_cons.mp hc with rfl | hc
      · exact hlt
      · exact hlt.trans (hb c hc)
    next hnlt =>
      split
      · exact h
      next hne =>
        refine List.pairwise_cons.mpr ⟨fun c hc => ?_, ih hbs⟩
        rcases mem_insertEntry hc with rfl | hc
        · exact lt_of_le_of_ne (not_lt.mp hnlt) (Ne.symm hne)
        · exact hb c hc

/-- An entry that is larger than the new one ends the part of the walk that an insertion looks at. -/
theorem insertEntry_append_of_lt {a b : α} (h : key a < key b) (as bs : List α) :
    insertEntry key a (as ++ b :: bs) = insertEntry key a as ++ b :: bs := by
  induction as with
  | nil => simp only [List.nil_append, insertEntry, if_pos h, List.cons_append]
  | cons c as ih =>
    simp only [List.cons_append, insertEntry, ih]
    split
    · rfl
    · split <;> rfl

/-- An insertion passes the smaller entries. -/
theorem insertEntry_append_of_gt {a : α} {as : List α} (h : ∀ b ∈ as, key b < key a)
    (bs : List α) : insertEntry key a (as ++ bs) = as ++ insertEntry key a bs := by
  induction as with
  | nil => rfl
  | cons c as ih =>
    have hc : key c < key a := h c List.mem_cons_self
    simp only [List.cons_append, insertEntry, if_neg (not_lt.mpr hc.le), if_neg hc.ne',
      ih fun b hb => h b (List.mem_cons_of_mem _ hb)]

/-- An insertion among entries that are read off other ones -/
theorem map_insertEntry (f : β → α) (b : β) (bs : List β) :
    (insertEntry (fun x => key (f x)) b bs).map f = insertEntry key (f b) (bs.map f) := by
  induction bs with
  | nil => rfl
  | cons c bs ih =>
    simp only [insertEntry, List.map_cons]
    split
    · rfl
    · split
      · rfl
      · rw [List.map_cons, ih]

/-- Add an entry. A table that has the key already is left as it is. -/
def insert (t : Table key) (a : α) : Table key :=
  ⟨insertEntry key a t.entries, insertEntry_ascending a t.ascending⟩

/-- Change the entry under a key, keeping its key. -/
def update (t : Table key) (k : κ) (f : α → α) (hf : ∀ a, key (f a) = key a) : Table key where
  entries := t.entries.map (fun a => if key a = k then f a else a)
  ascending := by
    refine List.pairwise_map.mpr (t.ascending.imp fun {a b} h => ?_)
    have ha : key (if key a = k then f a else a) = key a := by split <;> simp only [hf]
    have hb : key (if key b = k then f b else b) = key b := by split <;> simp only [hf]
    rwa [ha, hb]

/-! ## Lookup -/

theorem key_of_find? {t : Table key} {k : κ} {a : α} (h : t.find? k = some a) : key a = k := by
  simpa only [beq_iff_eq] using List.find?_some h

theorem mem_of_find? {t : Table key} {k : κ} {a : α} (h : t.find? k = some a) : a ∈ t.entries :=
  List.mem_of_find?_eq_some h

/-- Distinct keys make membership a lookup. -/
theorem find?_of_mem {t : Table key} {a : α} (h : a ∈ t.entries) : t.find? (key a) = some a := by
  obtain ⟨entries, ascending⟩ := t
  simp only [find?] at h ⊢
  induction entries with
  | nil => exact absurd h List.not_mem_nil
  | cons b bs ih =>
    obtain ⟨hb, hbs⟩ := List.pairwise_cons.mp ascending
    rcases List.mem_cons.mp h with rfl | h
    · exact List.find?_cons_of_pos (beq_self_eq_true (key a))
    · have hne : key b ≠ key a := (hb a h).ne
      rw [List.find?_cons_of_neg (by simpa only [beq_iff_eq] using hne)]
      exact ih hbs h

theorem find?_eq_some_iff {t : Table key} {k : κ} {a : α} :
    t.find? k = some a ↔ a ∈ t.entries ∧ key a = k :=
  ⟨fun h => ⟨mem_of_find? h, key_of_find? h⟩, fun h => h.2 ▸ find?_of_mem h.1⟩

theorem find?_eq_none_iff {t : Table key} {k : κ} :
    t.find? k = none ↔ ∀ a ∈ t.entries, key a ≠ k := by
  simp only [find?, List.find?_eq_none, beq_iff_eq, ne_eq]

@[simp] theorem find?_empty (k : κ) : (empty : Table key).find? k = none := rfl

/-! ## Insertion -/

/-- A new key adds exactly its entry to the walk. -/
theorem insert_perm {t : Table key} {a : α} (h : t.find? (key a) = none) :
    (t.insert a).entries.Perm (a :: t.entries) := by
  have hne := find?_eq_none_iff.mp h
  obtain ⟨entries, ascending⟩ := t
  simp only [insert] at hne ⊢
  clear ascending h
  induction entries with
  | nil => exact .refl _
  | cons b bs ih =>
    simp only [insertEntry]
    split
    · exact .refl _
    · rw [if_neg (hne b List.mem_cons_self).symm]
      exact ((ih fun c hc => hne c (List.mem_cons_of_mem _ hc)).cons b).trans (.swap a b bs)

theorem find?_insert {t : Table key} {a : α} (h : t.find? (key a) = none) (k : κ) :
    (t.insert a).find? k = if k = key a then some a else t.find? k := by
  have hmem : ∀ b, b ∈ (t.insert a).entries ↔ b = a ∨ b ∈ t.entries := fun b => by
    rw [(insert_perm h).mem_iff, List.mem_cons]
  split
  next hk =>
    subst hk
    exact find?_of_mem ((hmem a).mpr (.inl rfl))
  next hk =>
    ext b
    rw [find?_eq_some_iff, find?_eq_some_iff, hmem]
    constructor
    · rintro ⟨rfl | hb, hkey⟩
      · exact absurd hkey.symm hk
      · exact ⟨hb, hkey⟩
    · exact fun hb => ⟨.inr hb.1, hb.2⟩

/-- A key that is taken adds nothing. -/
theorem insert_of_find? {t : Table key} {a b : α} (h : t.find? (key a) = some b) :
    (t.insert a).entries = t.entries := by
  obtain ⟨hmem, hkey⟩ := find?_eq_some_iff.mp h
  obtain ⟨entries, ascending⟩ := t
  simp only [insert] at hmem ⊢
  clear h
  induction entries with
  | nil => cases hmem
  | cons c cs ih =>
    obtain ⟨hc, hcs⟩ := List.pairwise_cons.mp ascending
    rcases List.mem_cons.mp hmem with rfl | hmem
    · rw [insertEntry, if_neg (not_lt.mpr hkey.le), if_pos hkey.symm]
    · have hlt : key c < key a := hkey ▸ hc b hmem
      rw [insertEntry, if_neg (not_lt.mpr hlt.le), if_neg hlt.ne', ih hcs hmem]

/-- Of the entries that are added, the first one under a key is kept. -/
theorem find?_foldl_insert (as : List α) (t : Table key) (k : κ) :
    (as.foldl insert t).find? k = (t.find? k).or (as.find? fun a => key a == k) := by
  induction as generalizing t with
  | nil => simp only [List.foldl_nil, List.find?_nil, Option.or_none]
  | cons a as ih =>
    rw [List.foldl_cons, ih]
    cases hfind : t.find? (key a) with
    | none =>
      rw [find?_insert hfind]
      by_cases hk : k = key a
      · subst hk
        have hfirst : (a :: as).find? (fun b => key b == key a) = some a :=
          List.find?_cons_of_pos (beq_self_eq_true (key a))
        rw [if_pos rfl, hfind, hfirst, Option.none_or, Option.some_or]
      · rw [if_neg hk, List.find?_cons_of_neg]
        rw [beq_iff_eq]
        exact Ne.symm hk
    | some b =>
      have hsame : (t.insert a).find? k = t.find? k := by
        rw [find?, find?, insert_of_find? hfind]
      rw [hsame]
      by_cases hk : k = key a
      · subst hk
        rw [hfind, Option.some_or, Option.some_or]
      · rw [List.find?_cons_of_neg]
        rw [beq_iff_eq]
        exact Ne.symm hk

/-! ## Update -/

theorem find?_update {t : Table key} {k : κ} {f : α → α} (hf : ∀ a, key (f a) = key a) (k' : κ) :
    (t.update k f hf).find? k' = if k' = k then (t.find? k).map f else t.find? k' := by
  simp only [find?, update, List.find?_map]
  have hkey : (fun a => key a == k') ∘ (fun a => if key a = k then f a else a) =
      fun a => key a == k' := by
    funext a
    simp only [Function.comp_apply]
    split <;> simp only [hf]
  rw [hkey]
  split
  next hk =>
    subst hk
    cases h : t.entries.find? (fun a => key a == k') with
    | none => rfl
    | some a =>
      have ha : key a = k' := by simpa only [beq_iff_eq] using List.find?_some h
      simp only [Option.map_some, if_pos ha]
  next hk =>
    cases h : t.entries.find? (fun a => key a == k') with
    | none => rfl
    | some a =>
      have ha : key a = k' := by simpa only [beq_iff_eq] using List.find?_some h
      simp only [Option.map_some, ha, if_neg hk]

/-! ## Rekeying

The same entries under other keys. The walk of the second table has another order, so that the two walks
are compared up to permutation. -/

section Rekeys

variable {κ' α' : Type*} [LinearOrder κ'] {key' : α' → κ'}

/-- The entries of `t'` are those of `t` as `g` rewrites them, and the keys of `t` are in `S`. -/
structure Rekeys (S : Set κ) (g : α → α') (t : Table key) (t' : Table key') : Prop where
  entries : t'.entries.Perm (t.entries.map g)
  keys : ∀ a ∈ t.entries, key a ∈ S

variable {S : Set κ} {f : κ → κ'} {g : α → α'} {t : Table key} {t' : Table key'}

theorem rekeys_empty : Rekeys S g (empty : Table key) (empty : Table key') :=
  ⟨.refl _, fun _ h => absurd h List.not_mem_nil⟩

/-- A lookup under the other key finds the other entry. -/
theorem Rekeys.find? (h : Rekeys S g t t') (hg : ∀ a, key' (g a) = f (key a)) (hf : Set.InjOn f S)
    {k : κ} (hk : k ∈ S) : t'.find? (f k) = (t.find? k).map g := by
  cases hfind : t.find? k with
  | none =>
    rw [Option.map_none, find?_eq_none_iff]
    intro b hb
    obtain ⟨a, ha, rfl⟩ := List.mem_map.mp (h.entries.mem_iff.mp hb)
    rw [hg]
    intro hkey
    exact find?_eq_none_iff.mp hfind a ha (hf (h.keys a ha) hk hkey)
  | some a =>
    obtain ⟨ha, rfl⟩ := find?_eq_some_iff.mp hfind
    rw [Option.map_some, ← hg]
    exact find?_of_mem (h.entries.mem_iff.mpr (List.mem_map_of_mem ha))

theorem Rekeys.insert (h : Rekeys S g t t') (hg : ∀ a, key' (g a) = f (key a)) (hf : Set.InjOn f S)
    {a : α} (ha : key a ∈ S) (hnew : t.find? (key a) = none) :
    Rekeys S g (t.insert a) (t'.insert (g a)) := by
  have hnew' : t'.find? (key' (g a)) = none := by
    rw [hg, h.find? hg hf ha, hnew, Option.map_none]
  constructor
  · have hleft := insert_perm hnew'
    have hright := (insert_perm hnew).map g
    exact hleft.trans ((h.entries.cons (g a)).trans hright.symm)
  · intro b hb
    rcases List.mem_cons.mp ((insert_perm hnew).mem_iff.mp hb) with rfl | hb
    · exact ha
    · exact h.keys b hb

theorem Rekeys.update (h : Rekeys S g t t') (hg : ∀ a, key' (g a) = f (key a)) (hf : Set.InjOn f S)
    {k : κ} (hk : k ∈ S) {u : α → α} (hu : ∀ a, key (u a) = key a) {u' : α' → α'}
    (hu' : ∀ b, key' (u' b) = key' b) (hcomm : ∀ a, g (u a) = u' (g a)) :
    Rekeys S g (t.update k u hu) (t'.update (f k) u' hu') := by
  have hentry : ∀ a ∈ t.entries,
      (if key' (g a) = f k then u' (g a) else g a) = g (if key a = k then u a else a) := by
    intro a ha
    by_cases hkey : key a = k
    · rw [if_pos hkey, if_pos (by rw [hg, hkey]), hcomm]
    · rw [if_neg hkey, if_neg]
      rw [hg]
      exact fun heq => hkey (hf (h.keys a ha) hk heq)
  constructor
  · have hmap := h.entries.map fun b => if key' b = f k then u' b else b
    have heq : (t.entries.map g).map (fun b => if key' b = f k then u' b else b) =
        (t.entries.map fun a => if key a = k then u a else a).map g := by
      rw [List.map_map, List.map_map]
      exact List.map_congr_left hentry
    rw [heq] at hmap
    exact hmap
  · intro b hb
    obtain ⟨a, ha, rfl⟩ := List.mem_map.mp hb
    split
    · rw [hu]
      exact h.keys a ha
    · exact h.keys a ha

end Rekeys

/-! ## Accounting -/

/-- Items collected under the key they name, entry by entry, are the items that name an entry. -/
theorem flatMap_filter_perm (names : β → Option κ) (items : List β)
    (t : Table key) :
    (t.entries.flatMap fun a => items.filter (fun x => names x = some (key a))).Perm
      (items.filter fun x => ((names x).bind t.find?).isSome) := by
  have hnone : ∀ x, ((names x).bind t.find?).isSome ↔ ∃ a ∈ t.entries, names x = some (key a) := by
    intro x
    rw [Option.isSome_iff_exists]
    constructor
    · rintro ⟨a, ha⟩
      obtain ⟨k, hk, ha⟩ := Option.bind_eq_some_iff.mp ha
      exact ⟨a, mem_of_find? ha, by rw [hk, key_of_find? ha]⟩
    · rintro ⟨a, ha, hx⟩
      exact ⟨a, by rw [hx, Option.bind_some, find?_of_mem ha]⟩
  rw [List.filter_congr (q := fun x => decide (∃ a ∈ t.entries, names x = some (key a)))
    fun x _ => Bool.eq_iff_iff.mpr ((hnone x).trans (decide_eq_true_iff).symm)]
  obtain ⟨entries, ascending⟩ := t
  clear hnone
  induction entries with
  | nil => simp only [List.flatMap_nil, List.not_mem_nil, false_and, exists_false, decide_false,
      List.filter_false, List.Perm.refl]
  | cons a as ih =>
    obtain ⟨ha, has⟩ := List.pairwise_cons.mp ascending
    let p : β → Bool := fun x => decide (names x = some (key a))
    let q : β → Bool := fun x => decide (∃ b ∈ as, names x = some (key b))
    have hsplit : items.filter (fun x => decide (∃ b ∈ a :: as, names x = some (key b))) =
        items.filter (fun x => p x || q x) := by
      refine List.filter_congr fun x _ => ?_
      simp only [List.mem_cons, exists_eq_or_imp, Bool.decide_or, p, q]
    -- an item names one key, so no item is collected under two entries
    have hdisjoint : ∀ x, q x = true → p x = false := by
      intro x hq
      obtain ⟨b, hb, hxb⟩ := of_decide_eq_true hq
      refine decide_eq_false fun hxa => ?_
      exact (ha b hb).ne (Option.some.inj (hxa.symm.trans hxb))
    have hparts := (List.filter_append_perm p (items.filter fun x => p x || q x)).symm
    rw [List.filter_filter, List.filter_filter] at hparts
    have hp : items.filter (fun x => p x && (p x || q x)) = items.filter p :=
      List.filter_congr fun x _ => by cases p x <;> simp
    have hq : items.filter (fun x => !p x && (p x || q x)) = items.filter q := by
      refine List.filter_congr fun x _ => ?_
      cases hqx : q x with
      | true => simp only [hdisjoint x hqx, Bool.not_false, Bool.or_true, Bool.and_true]
      | false => cases p x <;> rfl
    rw [hp, hq] at hparts
    rw [List.flatMap_cons, hsplit]
    exact ((ih has).append_left _).trans hparts.symm

end Table

end Rbml.Lib
