import QuadAlgebra.Ordered.Basic

/-!
# Finite ordered sets

A set is its elements in strictly ascending order, so two sets with the same elements are
equal and listing a set shows its order. The main statement is `OrdSet.mem_insert`; the
sortedness of every result is part of the type.
-/

namespace QuadAlgebra

/-- The elements of a finite set, strictly ascending. -/
structure OrdSet (α : Type) [Ord α] where
  toList : List α
  ascending : toList.Pairwise fun a b => compare a b = .lt

namespace OrdSet

variable {α β : Type} [Ord α]

/-- A set is determined by the ascending list of its members. -/
theorem ext {s t : OrdSet α} (h : s.toList = t.toList) : s = t := by
  cases s; cases t; cases h; rfl

instance [DecidableEq α] : DecidableEq (OrdSet α) := fun s t =>
  if h : s.toList = t.toList then isTrue (ext h) else isFalse fun e => h (e ▸ rfl)

instance : Membership α (OrdSet α) := ⟨fun s a => a ∈ s.toList⟩

instance [DecidableEq α] (a : α) (s : OrdSet α) : Decidable (a ∈ s) :=
  inferInstanceAs (Decidable (a ∈ s.toList))

/-- The set without members. -/
def empty : OrdSet α := ⟨[], .nil⟩

instance : EmptyCollection (OrdSet α) := ⟨empty⟩
instance : Inhabited (OrdSet α) := ⟨empty⟩

/-- Whether the set has no members. -/
def isEmpty (s : OrdSet α) : Bool := s.toList.isEmpty

/-- The number of members. -/
def size (s : OrdSet α) : Nat := s.toList.length

/-! ## Insertion -/

/-- Adds a member, if it is not there. -/
def insert [Std.TransOrd α] (a : α) (s : OrdSet α) : OrdSet α :=
  ⟨placeBy id a s.toList, placeBy_ascending id a s.ascending⟩

/-- An insertion adds one member and keeps the others. -/
theorem mem_insert [Std.TransOrd α] [Std.LawfulEqOrd α] {a x : α} {s : OrdSet α} :
    x ∈ s.insert a ↔ x = a ∨ x ∈ s := by
  suffices ∀ l : List α, x ∈ placeBy id a l ↔ x = a ∨ x ∈ l from this s.toList
  intro l
  refine ⟨mem_of_mem_placeBy, fun h => ?_⟩
  induction l with
  | nil => simpa [placeBy] using h
  | cons b rest ih =>
    unfold placeBy
    split
    · simpa using h
    · next hab =>
      have same : a = b := Std.LawfulEqCmp.eq_of_compare hab
      simpa [same] using h
    · rcases h with h | h
      · exact List.mem_cons_of_mem _ (ih (Or.inl h))
      · rcases List.mem_cons.1 h with h | h
        · exact h ▸ List.mem_cons_self
        · exact List.mem_cons_of_mem _ (ih (Or.inr h))

/-! ## The other operations -/

/-- The set of the members of a list. -/
def ofList [Std.TransOrd α] (l : List α) : OrdSet α := l.foldr insert empty

/-- The set of one member. -/
def singleton (a : α) : OrdSet α := ⟨[a], List.pairwise_singleton _ _⟩

/-- Whether an element is a member. -/
def contains [BEq α] (s : OrdSet α) (a : α) : Bool := s.toList.contains a

/-- The members that satisfy a test. -/
def filter (p : α → Bool) (s : OrdSet α) : OrdSet α :=
  ⟨s.toList.filter p, s.ascending.filter p⟩

/-- Takes a member out. -/
def erase [BEq α] (s : OrdSet α) (a : α) : OrdSet α := s.filter (· != a)

/-- The members of either set. -/
def union [Std.TransOrd α] (s t : OrdSet α) : OrdSet α :=
  t.toList.foldr insert s

/-- The members of both sets. -/
def inter [BEq α] (s t : OrdSet α) : OrdSet α := s.filter t.contains

/-- Whether all members of one set belong to another. -/
def isSubset [BEq α] (s t : OrdSet α) : Bool := s.toList.all t.contains

instance [Std.TransOrd α] : Union (OrdSet α) := ⟨union⟩
instance [BEq α] : Inter (OrdSet α) := ⟨inter⟩

/-- The elements that `f` yields for the members of a list. -/
def unionOf [Std.TransOrd α] (f : β → OrdSet α) (l : List β) : OrdSet α :=
  l.foldl (fun s b => s ∪ f b) ∅

end OrdSet

end QuadAlgebra
