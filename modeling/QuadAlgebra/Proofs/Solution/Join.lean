import QuadAlgebra.Proofs.Solution.Lookup

/-!
# The algebra of joins

Lists of solutions are bags here, so laws hold up to permutation. The join is associative even as
an operation on lists (`joinSolutions_assoc`), commutative as an operation on bags
(`joinSolutions_comm`), and has the list of one empty solution as its unit. All ways to combine
two bags respect permutation. The solutions of several patterns are the join of the solutions of
each (`matchPatterns_eq_joins`).
-/

namespace QuadAlgebra

open List (Perm)

/-! ## Joins -/

/-- The union of two solutions, if they are compatible. -/
def Solution.union? (s t : Solution) : Option Solution :=
  if s.compatible t = true then some (s.merge t) else none

theorem Solution.union?_comm (s t : Solution) : s.union? t = t.union? s := by
  unfold union?
  rw [compatible_comm]
  split
  · next h => rw [merge_comm (by rwa [compatible_comm])]
  · rfl

/-- Unions can be formed in any grouping. -/
theorem Solution.union?_assoc (s t u : Solution) :
    ((s.union? t).bind fun st => st.union? u) = (t.union? u).bind fun tu => s.union? tu := by
  by_cases hst : s.compatible t = true
  · by_cases htu : t.compatible u = true
    · have hleft : (s.merge t).compatible u = s.compatible u := by
        rw [Bool.eq_iff_iff, merge_compatible_iff hst]
        exact and_iff_left htu
      have hright : s.compatible (t.merge u) = s.compatible u := by
        rw [compatible_comm, Bool.eq_iff_iff, merge_compatible_iff htu, compatible_comm (s := t),
          compatible_comm (s := u)]
        exact and_iff_right hst
      simp only [union?, hst, htu, if_true, Option.bind_some, hleft, hright, merge_assoc]
    · have hleft : ¬ (s.merge t).compatible u = true := fun h =>
        htu ((merge_compatible_iff hst).1 h).2
      simp [union?, hst, htu, hleft]
  · by_cases htu : t.compatible u = true
    · have hright : ¬ s.compatible (t.merge u) = true := fun h => by
        rw [compatible_comm, merge_compatible_iff htu, compatible_comm (s := t)] at h
        exact hst h.1
      simp [union?, hst, htu, hright]
    · simp [union?, hst, htu]

theorem map_merge_filter (s : Solution) (r : List Solution) :
    (r.filter s.compatible).map s.merge = r.filterMap s.union? := by
  induction r with
  | nil => rfl
  | cons t rest ih =>
      by_cases h : s.compatible t = true
      · simp [Solution.union?, h, ih]
      · simp [Solution.union?, h, ih]

theorem joinSolutions_eq (l r : List Solution) :
    joinSolutions l r = l.flatMap fun s => r.filterMap s.union? := by
  simp only [joinSolutions, map_merge_filter]

theorem mem_joinSolutions {l r : List Solution} {s : Solution} :
    s ∈ joinSolutions l r ↔ ∃ a ∈ l, ∃ b ∈ r, a.compatible b = true ∧ a.merge b = s := by
  simp [joinSolutions, and_assoc]

@[simp] theorem joinSolutions_unit (r : List Solution) : joinSolutions [∅] r = r := by
  have h : (∅ : Solution).union? = some := funext fun s => by simp [Solution.union?]
  simp [joinSolutions_eq, h]

@[simp] theorem joinSolutions_unit_right (l : List Solution) : joinSolutions l [∅] = l := by
  simp [joinSolutions_eq, Solution.union?]

theorem joinSolutions_assoc (a b c : List Solution) :
    joinSolutions (joinSolutions a b) c = joinSolutions a (joinSolutions b c) := by
  simp only [joinSolutions_eq, List.flatMap_assoc, List.filterMap_flatMap]
  refine List.flatMap_congr fun s _ => ?_
  have inner : ∀ b : List Solution,
      (b.filterMap s.union?).flatMap (fun st => c.filterMap st.union?) =
      b.flatMap fun t => (c.filterMap t.union?).filterMap s.union? := by
    intro b
    induction b with
    | nil => rfl
    | cons t rest ih =>
        rw [List.flatMap_cons, ← ih, List.filterMap_filterMap]
        simp only [← Solution.union?_assoc s t]
        cases h : s.union? t with
        | none => simp [h]
        | some st => simp [h]
  exact inner b

/-- Pairs can be gone through in either order. -/
theorem perm_flatMap_filterMap_comm {α β γ : Type} (f : α → β → Option γ) (l : List α)
    (r : List β) :
    (l.flatMap fun a => r.filterMap (f a)).Perm (r.flatMap fun b => l.filterMap (f · b)) := by
  induction l with
  | nil => simp
  | cons a rest ih =>
      have first : r.filterMap (f a) = r.flatMap fun b => (f a b).toList :=
        List.filterMap_eq_flatMap_toList (f a) r
      have others : (r.flatMap fun b => (a :: rest).filterMap (f · b)) =
          r.flatMap fun b => (f a b).toList ++ rest.filterMap (f · b) := by
        refine List.flatMap_congr fun b _ => ?_
        rw [List.filterMap_cons]
        cases f a b <;> rfl
      rw [List.flatMap_cons, first, others]
      exact (ih.append_left _).trans
        (List.flatMap_append_perm r (fun b => (f a b).toList) fun b => rest.filterMap (f · b))

theorem joinSolutions_comm (l r : List Solution) :
    (joinSolutions l r).Perm (joinSolutions r l) := by
  rw [joinSolutions_eq, joinSolutions_eq]
  refine (perm_flatMap_filterMap_comm Solution.union? l r).trans ?_
  refine Perm.flatMap_left r fun t _ => ?_
  exact .of_eq (List.filterMap_congr fun s _ => Solution.union?_comm s t)

theorem joinSolutions_perm {l l' r r' : List Solution} (hl : l.Perm l') (hr : r.Perm r') :
    (joinSolutions l r).Perm (joinSolutions l' r') := by
  rw [joinSolutions_eq, joinSolutions_eq]
  exact hl.flatMap fun s _ => hr.filterMap s.union?

/-! ## Joins of many -/

/-- The join of all lists, starting from one empty solution. -/
def joinMany (lists : List (List Solution)) : List Solution := lists.foldl joinSolutions [∅]

@[simp] theorem joinMany_nil : joinMany [] = [∅] := rfl

theorem foldl_joinSolutions (start : List Solution) (lists : List (List Solution)) :
    lists.foldl joinSolutions start = joinSolutions start (joinMany lists) := by
  induction lists generalizing start with
  | nil => simp
  | cons rows rest ih =>
      rw [joinMany, List.foldl_cons, List.foldl_cons, ih, ih (joinSolutions [∅] rows),
        joinSolutions_unit, joinSolutions_assoc]

theorem joinMany_cons (rows : List Solution) (rest : List (List Solution)) :
    joinMany (rows :: rest) = joinSolutions rows (joinMany rest) := by
  rw [joinMany, List.foldl_cons, joinSolutions_unit, foldl_joinSolutions]

theorem joinMany_append (l r : List (List Solution)) :
    joinMany (l ++ r) = joinSolutions (joinMany l) (joinMany r) := by
  rw [joinMany, List.foldl_append, foldl_joinSolutions]
  rfl

@[simp] theorem joinMany_singleton (rows : List Solution) : joinMany [rows] = rows := by
  rw [joinMany_cons, joinMany_nil, joinSolutions_unit_right]

/-- The operator that joins its operands starts from the first one, which comes to the same. -/
theorem joinAll_eq_joinMany {lists : List (List Solution)} (h : lists ≠ []) :
    joinAll lists = joinMany lists := by
  cases lists with
  | nil => exact absurd rfl h
  | cons rows rest => rw [joinAll, foldl_joinSolutions, joinMany_cons]

theorem forall₂_perm_joinMany {found lists : List (List Solution)}
    (h : List.Forall₂ Perm found lists) : (joinMany found).Perm (joinMany lists) := by
  induction h with
  | nil => exact .refl _
  | cons hl _ ih =>
      rw [joinMany_cons, joinMany_cons]
      exact joinSolutions_perm hl ih

/-! ## Left joins and differences -/

theorem leftJoinSolutions_perm {l l' r r' : List Solution} (hl : l.Perm l') (hr : r.Perm r') :
    (leftJoinSolutions l r).Perm (leftJoinSolutions l' r') := by
  unfold leftJoinSolutions
  refine hl.flatMap fun s _ => ?_
  have hext : ((r.filter s.compatible).map s.merge).Perm ((r'.filter s.compatible).map s.merge) :=
    (hr.filter _).map _
  generalize (r.filter s.compatible).map s.merge = extended at hext ⊢
  generalize (r'.filter s.compatible).map s.merge = extended' at hext ⊢
  cases extended with
  | nil => rw [hext.symm.eq_nil]
  | cons a rest =>
      cases extended' with
      | nil => exact absurd hext.eq_nil (List.cons_ne_nil a rest)
      | cons b rest' => exact hext

theorem subtractSolutions_perm {l l' r r' : List Solution} (hl : l.Perm l') (hr : r.Perm r') :
    (subtractSolutions l r).Perm (subtractSolutions l' r') := by
  unfold subtractSolutions
  have hany : ∀ s : Solution, (r.any fun t => s.compatible t && s.overlaps t) =
      r'.any fun t => s.compatible t && s.overlaps t := fun s => hr.any_eq
  simp only [hany]
  exact hl.filter _

/-! ## Solutions of patterns -/

/-- The solutions of one pattern among some triples. -/
def TriplePattern.solutions (p : TriplePattern) (triples : List Triple) : List Solution :=
  triples.filterMap fun t => p.match? t ∅

/-- Extending a solution by matches of a pattern joins it with the solutions of the pattern. -/
theorem filterMap_match? (p : TriplePattern) (triples : List Triple) (s : Solution) :
    (triples.filterMap fun t => p.match? t s) = (p.solutions triples).filterMap s.union? := by
  rw [TriplePattern.solutions, List.filterMap_filterMap]
  exact List.filterMap_congr fun t _ => TriplePattern.match?_eq_bind p t s

theorem matchPatterns_eq_joins (patterns : List TriplePattern) (triples : List Triple)
    (start : Solution) :
    matchPatterns patterns triples start =
      (patterns.map fun p => p.solutions triples).foldl joinSolutions [start] := by
  unfold matchPatterns
  generalize [start] = rows
  induction patterns generalizing rows with
  | nil => rfl
  | cons p rest ih =>
      rw [List.foldl_cons, List.map_cons, List.foldl_cons, ← ih, joinSolutions_eq]
      simp only [filterMap_match?]

end QuadAlgebra
