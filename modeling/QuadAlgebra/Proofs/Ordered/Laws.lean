import Mathlib.Data.List.Perm.Subperm
import QuadAlgebra.Ordered.List
import QuadAlgebra.Ordered.Map

/-!
# Laws of ordered sets, ordered maps and sorted lists

What later files need to know about the containers of the library, so that none of them has to be
opened again: when an element is in a set that was made from a list (`OrdSet.mem_ofList`), what a
map answers after each operation, that sorting and removal of repetitions only move or drop
elements (`stableSort_perm`, `mem_distinctOf`), and that sorting by a total order is stable
(`sorted_stableSort`, `filter_stableSort`).
-/

namespace QuadAlgebra

/-! ## Sets -/

namespace OrdSet

variable {α β : Type} [Ord α]

@[simp] theorem mem_toList {s : OrdSet α} {a : α} : a ∈ s.toList ↔ a ∈ s := Iff.rfl

@[simp] theorem not_mem_empty (a : α) : ¬ a ∈ (∅ : OrdSet α) := by
  intro h
  exact List.not_mem_nil h

@[simp] theorem mem_singleton {a x : α} : x ∈ OrdSet.singleton a ↔ x = a := List.mem_singleton

theorem mem_filter {p : α → Bool} {s : OrdSet α} {x : α} : x ∈ s.filter p ↔ x ∈ s ∧ p x = true :=
  List.mem_filter

@[simp] theorem contains_iff [BEq α] [LawfulBEq α] {s : OrdSet α} {a : α} :
    s.contains a = true ↔ a ∈ s := List.contains_iff_mem

/-- A set is part of another one if all of its elements are in that. -/
theorem isSubset_iff [BEq α] [LawfulBEq α] {s t : OrdSet α} :
    s.isSubset t = true ↔ ∀ a ∈ s, a ∈ t := by
  simp [isSubset, List.all_eq_true]

@[simp] theorem mem_inter [BEq α] [LawfulBEq α] {s t : OrdSet α} {a : α} :
    a ∈ s ∩ t ↔ a ∈ s ∧ a ∈ t := by
  change a ∈ s.filter t.contains ↔ _
  rw [mem_filter, contains_iff]

/-- An element that is taken out is gone, and the others stay. -/
theorem mem_erase [BEq α] [LawfulBEq α] {s : OrdSet α} {a x : α} :
    x ∈ s.erase a ↔ x ∈ s ∧ x ≠ a := by
  rw [erase, mem_filter, bne_iff_ne]

section Lawful

variable [Std.TransOrd α] [Std.LawfulEqOrd α]

@[simp] theorem mem_ofList {l : List α} {x : α} : x ∈ ofList l ↔ x ∈ l := by
  induction l with
  | nil => exact ⟨fun h => absurd h (not_mem_empty x), fun h => absurd h List.not_mem_nil⟩
  | cons a rest ih =>
      rw [List.mem_cons, ← ih]
      exact mem_insert

@[simp] theorem mem_union {s t : OrdSet α} {x : α} : x ∈ s ∪ t ↔ x ∈ s ∨ x ∈ t := by
  change x ∈ t.toList.foldr OrdSet.insert s ↔ _
  rw [← mem_toList (s := t)]
  induction t.toList with
  | nil => simp
  | cons a rest ih =>
      rw [List.foldr_cons, mem_insert, ih, List.mem_cons]
      tauto

omit [Std.TransOrd α] in
/-- Elements in ascending order do not repeat. -/
theorem nodup_toList (s : OrdSet α) : s.toList.Nodup :=
  s.ascending.imp fun {a b} (h : compare a b = .lt) (e : a = b) => by
    subst e
    simp at h

/-- A union over a list has what is in the set for one of its elements. -/
theorem mem_unionOf {f : β → OrdSet α} {l : List β} {x : α} :
    x ∈ unionOf f l ↔ ∃ b ∈ l, x ∈ f b := by
  suffices ∀ s : OrdSet α, x ∈ l.foldl (fun s b => s ∪ f b) s ↔ x ∈ s ∨ ∃ b ∈ l, x ∈ f b by
    rw [unionOf, this]
    simp
  induction l with
  | nil => simp
  | cons b rest ih =>
      intro s
      rw [List.foldl_cons, ih, mem_union]
      simp [or_assoc]

/-- Two sets with the same elements are equal. -/
theorem eq_of_mem_iff {s t : OrdSet α} (h : ∀ x, x ∈ s ↔ x ∈ t) : s = t := by
  refine ext (List.Perm.eq_of_pairwise ?_ s.ascending t.ascending ?_)
  · exact fun a b _ _ hab hba => absurd hba (Std.OrientedCmp.not_lt_of_lt hab)
  · exact (List.perm_ext_iff_of_nodup s.nodup_toList t.nodup_toList).2 h

/-- If a set has as many elements as the list that it is made from, the list repeats none. -/
theorem nodup_of_size_ofList {l : List α} (h : (ofList l).size = l.length) : l.Nodup := by
  have hsubperm : (ofList l).toList.Subperm l :=
    (nodup_toList _).subperm fun a ha => mem_ofList.1 (mem_toList.1 ha)
  exact (hsubperm.perm_of_length_le (Nat.le_of_eq h.symm)).nodup_iff.1 (nodup_toList _)

/-- Lists with the same elements make the same set, in the same order. -/
theorem toList_ofList_congr {l r : List α} (h : ∀ x, x ∈ l ↔ x ∈ r) :
    (ofList l).toList = (ofList r).toList := by
  rw [eq_of_mem_iff (s := ofList l) (t := ofList r) fun x => by rw [mem_ofList, mem_ofList, h]]

end Lawful

end OrdSet

/-! ## Maps -/

namespace OrdMap

variable {κ υ : Type} [Ord κ] [DecidableEq κ]

@[simp] theorem get?_empty (k : κ) : (∅ : OrdMap κ υ).get? k = none := rfl

@[simp] theorem get?_singleton (k k' : κ) (v : υ) :
    (OrdMap.singleton k v).get? k' = if k' = k then some v else none := by
  simp [OrdMap.singleton, get?, lookup]

/-- A key that a map contains has a value. -/
theorem contains_iff {m : OrdMap κ υ} {k : κ} : m.contains k = true ↔ ∃ v, m.get? k = some v := by
  rw [contains, Option.isSome_iff_exists]

variable [Std.LawfulEqOrd κ]

/-- A list with ascending keys has one entry for each key. -/
theorem lookup_eq_some_iff {l : List (κ × υ)} (h : l.Pairwise fun a b => compare a.1 b.1 = .lt)
    {k : κ} {v : υ} : lookup k l = some v ↔ (k, v) ∈ l := by
  induction l with
  | nil => simp [lookup]
  | cons e rest ih =>
      obtain ⟨k', v'⟩ := e
      obtain ⟨hfirst, hrest⟩ := List.pairwise_cons.1 h
      by_cases hk : k = k'
      · subst hk
        have hnot : (k, v) ∉ rest := fun hmem => by
          have := hfirst _ hmem
          simp at this
        simp [lookup, hnot, eq_comm]
      · simp [lookup, hk, ih hrest]

/-- The entries are what the look-ups answer. -/
theorem mem_entries_iff {m : OrdMap κ υ} {k : κ} {v : υ} :
    (k, v) ∈ m.entries ↔ m.get? k = some v := (lookup_eq_some_iff m.ascending).symm

/-- The keys of a map are those with values. -/
theorem mem_keys_iff {m : OrdMap κ υ} {k : κ} : k ∈ m.keys ↔ ∃ v, m.get? k = some v := by
  rw [keys, List.mem_map]
  constructor
  · rintro ⟨⟨k', v⟩, hmem, rfl⟩
    exact ⟨v, mem_entries_iff.1 hmem⟩
  · rintro ⟨v, hv⟩
    exact ⟨(k, v), mem_entries_iff.2 hv, rfl⟩

theorem mem_keySet {m : OrdMap κ υ} {k : κ} : k ∈ m.keySet ↔ ∃ v, m.get? k = some v :=
  mem_keys_iff

/-- To filter a map takes away values, and no others come instead. -/
theorem get?_filter (p : κ → υ → Bool) (m : OrdMap κ υ) (k : κ) :
    (m.filter p).get? k = (m.get? k).filter (p k) := by
  apply Option.ext
  intro v
  rw [← mem_entries_iff, Option.filter_eq_some_iff, ← mem_entries_iff]
  exact List.mem_filter

/-- A key that is taken out has no value any more. -/
theorem get?_erase (m : OrdMap κ υ) (k k' : κ) :
    (m.erase k).get? k' = if k' = k then none else m.get? k' := by
  rw [erase, get?_filter]
  by_cases h : k' = k
  · simp [h]
  · cases m.get? k' <;> simp [Option.filter, h]

/-- Without repeated keys, entries that are put into a map one after the other all stay. -/
theorem get?_insertAll [Std.TransOrd κ] {l : List (κ × υ)} (h : (l.map Prod.fst).Nodup)
    (m : OrdMap κ υ) {k : κ} {v : υ} :
    (l.foldl (fun m e => m.insert e.1 e.2) m).get? k = some v ↔
      (k, v) ∈ l ∨ k ∉ l.map Prod.fst ∧ m.get? k = some v := by
  induction l generalizing m with
  | nil => simp
  | cons e rest ih =>
      obtain ⟨k', v'⟩ := e
      rw [List.map_cons, List.nodup_cons] at h
      rw [List.foldl_cons, ih h.2, get?_insert, List.map_cons, List.mem_cons, List.mem_cons]
      by_cases hk : k = k'
      · subst hk
        have hnot : (k, v) ∉ rest := fun hmem => h.1 (List.mem_map.2 ⟨_, hmem, rfl⟩)
        simp [h.1, hnot, eq_comm]
      · simp [hk]

/-- Without repeated keys the map of a list has just its entries. -/
theorem get?_ofList [Std.TransOrd κ] {l : List (κ × υ)} (h : (l.map Prod.fst).Nodup) {k : κ}
    {v : υ} : (ofList l).get? k = some v ↔ (k, v) ∈ l := by
  refine (get?_insertAll h ∅).trans ?_
  simp

end OrdMap

/-! ## Sorting and removal of repetitions -/

section Lists

variable {α β : Type}

/-- An element is placed somewhere in the list. -/
theorem perm_placeFromRight (compare : α → α → Ordering) (a : α) (l : List α) :
    (placeFromRight compare a l).Perm (a :: l) := by
  induction l with
  | nil => exact .refl _
  | cons b rest ih =>
      unfold placeFromRight
      split
      · exact (ih.cons b).trans (.swap a b rest)
      · exact .refl _

/-- Sorting only moves elements. -/
theorem stableSort_perm (compare : α → α → Ordering) (l : List α) :
    (stableSort compare l).Perm l := by
  suffices ∀ start : List α,
      (l.foldl (fun sorted a => placeFromRight compare a sorted) start).Perm (l ++ start) by
    exact (List.reverse_perm _).trans (by simpa using this [])
  induction l with
  | nil => exact fun start => .refl _
  | cons a rest ih =>
      intro start
      refine (ih (placeFromRight compare a start)).trans ?_
      exact ((perm_placeFromRight compare a start).append_left rest).trans List.perm_middle

section Compare

variable (compare : α → α → Ordering) [Std.TransCmp compare]

/-- What is placed into a sorted list leaves it sorted. -/
theorem pairwise_placeFromRight (a : α) {l : List α} (h : l.Pairwise fun a b => compare a b ≠ .lt) :
    (placeFromRight compare a l).Pairwise fun a b => compare a b ≠ .lt := by
  induction l with
  | nil => exact List.pairwise_singleton _ _
  | cons b rest ih =>
      obtain ⟨hb, hrest⟩ := List.pairwise_cons.1 h
      unfold placeFromRight
      split
      · next hab =>
        refine List.pairwise_cons.2 ⟨fun x hx => ?_, ih hrest⟩
        rcases List.mem_cons.1 ((perm_placeFromRight compare a rest).mem_iff.1 hx) with rfl | hx
        · exact Std.OrientedCmp.not_lt_of_lt hab
        · exact hb x hx
      · next hab =>
        have hba : (compare b a).isLE :=
          Std.OrientedCmp.isGE_iff_isLE.1 (Ordering.isGE_iff_ne_lt.2 hab)
        refine List.pairwise_cons.2 ⟨fun x hx => ?_, h⟩
        rcases List.mem_cons.1 hx with rfl | hx
        · exact hab
        · exact fun hax => hb x hx (Std.TransCmp.lt_of_isLE_of_lt hba hax)

/-- After sorting no element is greater than a later one. -/
theorem sorted_stableSort (l : List α) :
    (stableSort compare l).Pairwise fun a b => compare a b ≠ .gt := by
  suffices ∀ (l start : List α), (start.Pairwise fun a b => compare a b ≠ .lt) →
      (l.foldl (fun sorted a => placeFromRight compare a sorted) start).Pairwise
        fun a b => compare a b ≠ .lt from
    List.pairwise_reverse.2 ((this l [] .nil).imp fun hab hgt => hab (Std.OrientedCmp.lt_of_gt hgt))
  intro l
  induction l with
  | nil => exact fun start h => h
  | cons a rest ih => exact fun start h => ih _ (pairwise_placeFromRight compare a h)

/-- An element passes only others that it is less than. -/
theorem filter_placeFromRight (a x : α) (l : List α) :
    (placeFromRight compare x l).filter (compare a · = .eq) =
      (x :: l).filter (compare a · = .eq) := by
  induction l with
  | nil => rfl
  | cons b rest ih =>
      unfold placeFromRight
      split
      · next hxb =>
        have hnot : ¬ (compare a x = .eq ∧ compare a b = .eq) := fun h => by
          have hab := Std.TransCmp.lt_of_eq_of_lt h.1 hxb
          rw [h.2] at hab
          contradiction
        rw [List.filter_cons, ih, List.filter_cons, List.filter_cons, List.filter_cons]
        by_cases hx : compare a x = .eq <;> by_cases hb : compare a b = .eq <;> simp_all
      · rfl

/-- Sorting leaves elements that compare equal in the order in which they were. -/
theorem filter_stableSort (a : α) (l : List α) :
    (stableSort compare l).filter (compare a · = .eq) = l.filter (compare a · = .eq) := by
  suffices ∀ start : List α,
      (l.foldl (fun sorted a => placeFromRight compare a sorted) start).filter (compare a · = .eq) =
        (l.reverse ++ start).filter (compare a · = .eq) by
    rw [stableSort, List.filter_reverse, this [], List.append_nil, List.filter_reverse,
      List.reverse_reverse]
  induction l with
  | nil => exact fun start => rfl
  | cons b rest ih =>
      intro start
      rw [List.foldl_cons, ih, List.filter_append, filter_placeFromRight, ← List.filter_append,
        List.reverse_cons, List.append_assoc, List.singleton_append]

end Compare

/-- Sorting by a number leaves the numbers in ascending order. -/
theorem pairwise_stableSort (key : α → Nat) (l : List α) :
    (stableSort (fun a b => compare (key a) (key b)) l).Pairwise fun a b => key a ≤ key b := by
  have : Std.TransCmp fun a b => compare (key a) (key b) := compareKeys_trans key
  exact (sorted_stableSort _ l).imp fun h => Nat.compare_ne_gt.1 h

/-- An element is placed by what it compares like. -/
theorem placeFromRight_map {compare : α → α → Ordering} {compare' : β → β → Ordering} {f : α → β}
    (h : ∀ a b, compare' (f a) (f b) = compare a b) (a : α) (l : List α) :
    placeFromRight compare' (f a) (l.map f) = (placeFromRight compare a l).map f := by
  induction l with
  | nil => rfl
  | cons b rest ih =>
      rw [List.map_cons, placeFromRight, placeFromRight, h, ih]
      split <;> rfl

/-- Sorting commutes with a map that keeps the order. -/
theorem stableSort_map (compare : α → α → Ordering) (compare' : β → β → Ordering) {f : α → β}
    (h : ∀ a b, compare' (f a) (f b) = compare a b) (l : List α) :
    stableSort compare' (l.map f) = (stableSort compare l).map f := by
  suffices ∀ sorted : List α,
      (l.map f).foldl (fun sorted a => placeFromRight compare' a sorted) (sorted.map f) =
        (l.foldl (fun sorted a => placeFromRight compare a sorted) sorted).map f by
    rw [stableSort, stableSort, List.map_reverse, ← this []]
    rfl
  induction l with
  | nil => exact fun _ => rfl
  | cons a rest ih =>
      intro sorted
      rw [List.map_cons, List.foldl_cons, List.foldl_cons, placeFromRight_map h, ih]

/-- If all that an element leads to is decided like the element, elements can be chosen before. -/
theorem filter_flatMap_of_forall {α β : Type} {f : α → List β} {p : α → Bool} {q : β → Bool}
    {l : List α} (h : ∀ a ∈ l, ∀ b ∈ f a, q b = p a) :
    (l.flatMap f).filter q = (l.filter p).flatMap f := by
  induction l with
  | nil => rfl
  | cons a rest ih =>
      have hfirst (b : β) (hb : b ∈ f a) := h a List.mem_cons_self b hb
      rw [List.flatMap_cons, List.filter_append, List.filter_cons,
        ih fun b hb => h b (List.mem_cons_of_mem _ hb)]
      split
      · next hp =>
        rw [List.flatMap_cons, List.filter_eq_self.2 fun b hb => by rwa [hfirst b hb]]
      · next hp =>
        rw [List.filter_eq_nil_iff.2 fun b hb => by rwa [hfirst b hb], List.nil_append]

/-- Lists that are permuted each may be put together. -/
theorem forall₂_perm_flatten {α : Type} {l r : List (List α)} (h : List.Forall₂ List.Perm l r) :
    l.flatten.Perm r.flatten := by
  induction h with
  | nil => exact .refl _
  | cons hl _ ih =>
      rw [List.flatten_cons, List.flatten_cons]
      exact hl.append ih

/-- Each element on the left has its partner on the right. -/
theorem exists_of_forall₂ {α β : Type} {R : α → β → Prop} {as : List α} {bs : List β}
    (h : List.Forall₂ R as bs) {a : α} (ha : a ∈ as) : ∃ b ∈ bs, R a b := by
  induction h with
  | nil => exact absurd ha List.not_mem_nil
  | @cons a' b' as bs hab _ ih =>
      rcases List.mem_cons.1 ha with rfl | ha
      · exact ⟨b', List.mem_cons_self, hab⟩
      · obtain ⟨b, hb, hab⟩ := ih ha
        exact ⟨b, List.mem_cons_of_mem _ hb, hab⟩

variable [BEq α] [LawfulBEq α]

/-- What the removal of repetitions has gathered, last element first. -/
theorem nodup_mem_gather (l seen : List α) (h : seen.Nodup) :
    (l.foldl (fun seen a => if seen.contains a then seen else a :: seen) seen).Nodup ∧
      ∀ x, x ∈ l.foldl (fun seen a => if seen.contains a then seen else a :: seen) seen ↔
        x ∈ seen ∨ x ∈ l := by
  induction l generalizing seen with
  | nil => exact ⟨h, fun x => by simp⟩
  | cons a rest ih =>
      by_cases ha : a ∈ seen
      · rw [List.foldl_cons, if_pos (List.contains_iff_mem.2 ha)]
        refine ⟨(ih seen h).1, fun x => ?_⟩
        rw [(ih seen h).2, List.mem_cons]
        constructor
        · tauto
        · rintro (hx | rfl | hx)
          · exact Or.inl hx
          · exact Or.inl ha
          · exact Or.inr hx
      · rw [List.foldl_cons, if_neg (fun hc => ha (List.contains_iff_mem.1 hc))]
        have hnext := ih (a :: seen) (List.nodup_cons.2 ⟨ha, h⟩)
        refine ⟨hnext.1, fun x => ?_⟩
        rw [hnext.2, List.mem_cons, List.mem_cons]
        tauto

theorem nodup_distinctOf (l : List α) : (distinctOf l).Nodup :=
  List.pairwise_reverse.2 ((nodup_mem_gather l [] List.nodup_nil).1.imp Ne.symm)

@[simp] theorem mem_distinctOf {l : List α} {x : α} : x ∈ distinctOf l ↔ x ∈ l := by
  rw [distinctOf, List.mem_reverse, (nodup_mem_gather l [] List.nodup_nil).2]
  simp

/-- Duplicates are removed from lists in another order alike. -/
theorem distinctOf_perm {l r : List α} (h : l.Perm r) : (distinctOf l).Perm (distinctOf r) :=
  (List.perm_ext_iff_of_nodup (nodup_distinctOf l) (nodup_distinctOf r)).2 fun a => by
    rw [mem_distinctOf, mem_distinctOf, h.mem_iff]

/-- Removal of repetitions commutes with an injective map. -/
theorem distinctOf_map {β : Type} [BEq β] [LawfulBEq β] {f : α → β} (hf : Function.Injective f)
    (l : List α) : distinctOf (l.map f) = (distinctOf l).map f := by
  suffices ∀ seen : List α,
      (l.map f).foldl (fun seen a => if seen.contains a then seen else a :: seen) (seen.map f) =
        (l.foldl (fun seen a => if seen.contains a then seen else a :: seen) seen).map f by
    unfold distinctOf
    rw [List.map_reverse, ← this []]
    rfl
  induction l with
  | nil => exact fun seen => rfl
  | cons a rest ih =>
      intro seen
      have hmem : (seen.map f).contains (f a) = seen.contains a := by
        rw [Bool.eq_iff_iff, List.contains_iff_mem, List.contains_iff_mem]
        exact List.mem_map_of_injective hf
      rw [List.map_cons, List.foldl_cons, List.foldl_cons, hmem]
      split
      · exact ih seen
      · exact ih (a :: seen)

end Lists

end QuadAlgebra
