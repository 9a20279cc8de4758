/-!
# Lists without repetitions, and stable sorting

Two operations on lists that keep the order of what they do not move.
-/

namespace QuadAlgebra

variable {α : Type}

/-- The first occurrence of every element, in order. -/
def distinctOf [BEq α] (l : List α) : List α :=
  (l.foldl (fun seen a => if seen.contains a then seen else a :: seen) []).reverse

/-- Puts an element after all elements, counted from the right, that are not greater. The list is
held last element first. -/
def placeFromRight (compare : α → α → Ordering) (a : α) : List α → List α
  | [] => [a]
  | b :: rest => if compare a b = .lt then b :: placeFromRight compare a rest else a :: b :: rest

/-- Sorting by insertion from the left. Elements that compare equal keep their order. The standard
sort is only specified for comparisons that are total preorders. The comparison of `ORDER BY` is
none where numbers are undefined; there the standard sort leaves the order open, and newer versions
of it may panic, while this definition fixes the result of the insertions. -/
def stableSort (compare : α → α → Ordering) (l : List α) : List α :=
  (l.foldl (fun sorted a => placeFromRight compare a sorted) []).reverse

end QuadAlgebra
