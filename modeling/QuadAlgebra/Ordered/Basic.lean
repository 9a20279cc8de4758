/-!
# Orders by key

Every type that the algebra sorts is compared through a key: a tuple, list or option of
strings and numbers, compared lexicographically. This file holds the two lemmas that carry
the laws of the key's order over to the type: transitivity always, and "compares equal only
to itself" when the key is injective. It also has the insertion into a list that ascends by
key, which sets and maps share (`placeBy_ascending`).
-/

namespace QuadAlgebra

attribute [local instance] lexOrd

variable {α κ : Type} [Ord κ]

/-- Comparison of two values by their keys. -/
def compareKeys (key : α → κ) (a b : α) : Ordering := compare (key a) (key b)

theorem compareKeys_trans [Std.TransOrd κ] (key : α → κ) : Std.TransCmp (compareKeys key) where
  eq_swap {a b} := show compare (key a) (key b) = _ from Std.OrientedCmp.eq_swap
  isLE_trans {a b c} := show (compare (key a) (key b)).isLE → (compare (key b) (key c)).isLE →
    (compare (key a) (key c)).isLE from Std.TransCmp.isLE_trans

theorem compareKeys_lawful [Std.LawfulEqOrd κ] (key : α → κ)
    (injective : ∀ a b, key a = key b → a = b) : Std.LawfulEqCmp (compareKeys key) where
  compare_self {a} := show compare (key a) (key a) = .eq from Std.ReflCmp.compare_self
  eq_of_compare {a b} h := injective a b (Std.LawfulEqCmp.eq_of_compare h)

/-! ## Insertion by key -/

variable {β : Type}

/-- Puts an element at its place in a list that ascends by key, where it takes the place of one with
an equal key. -/
def placeBy (key : β → κ) (a : β) : List β → List β
  | [] => [a]
  | b :: rest =>
    match compare (key a) (key b) with
    | .lt => a :: b :: rest
    | .eq => a :: rest
    | .gt => b :: placeBy key a rest

/-- Insertion brings in nothing but the new element. -/
theorem mem_of_mem_placeBy {key : β → κ} {a x : β} {l : List β} (h : x ∈ placeBy key a l) :
    x = a ∨ x ∈ l := by
  induction l with
  | nil => exact Or.inl (List.mem_singleton.1 h)
  | cons b rest ih =>
    unfold placeBy at h
    split at h
    · exact List.mem_cons.1 h
    · rcases List.mem_cons.1 h with h | h
      · exact Or.inl h
      · exact Or.inr (List.mem_cons_of_mem _ h)
    · rcases List.mem_cons.1 h with h | h
      · exact Or.inr (h ▸ List.mem_cons_self)
      · exact (ih h).imp id (List.mem_cons_of_mem _)

theorem placeBy_ascending [Std.TransOrd κ] (key : β → κ) (a : β) {l : List β}
    (h : l.Pairwise fun a b => compare (key a) (key b) = .lt) :
    (placeBy key a l).Pairwise fun a b => compare (key a) (key b) = .lt := by
  induction l with
  | nil => exact List.pairwise_singleton _ _
  | cons b rest ih =>
    obtain ⟨hb, hrest⟩ := List.pairwise_cons.1 h
    unfold placeBy
    split
    · next hab =>
      refine List.pairwise_cons.2 ⟨fun x hx => ?_, h⟩
      rcases List.mem_cons.1 hx with rfl | hx
      · exact hab
      · exact Std.TransCmp.lt_trans hab (hb x hx)
    · next hab =>
      exact List.pairwise_cons.2 ⟨fun x hx => Std.TransCmp.lt_of_eq_of_lt hab (hb x hx), hrest⟩
    · next hab =>
      refine List.pairwise_cons.2 ⟨fun x hx => ?_, ih hrest⟩
      rcases mem_of_mem_placeBy hx with rfl | hx
      · exact Std.OrientedCmp.lt_of_gt hab
      · exact hb x hx

end QuadAlgebra
