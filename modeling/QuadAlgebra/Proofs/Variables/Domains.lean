import QuadAlgebra.Plan.Variables
import QuadAlgebra.Proofs.Semantics.Scans

/-!
# The variables that solutions bind

The domain of a solution is the set of the variables that it binds (`OrdMap.keySet`). For each
function on solutions that an operator applies there is one lemma on domains: most domains depend on
the domains of the arguments only, so that domains can be followed through a plan without looking
at terms.
-/

namespace QuadAlgebra

/-! ## Solutions -/

namespace Solution

variable {s t : Solution} {v : Variable}

/-- A variable is in the domain of a solution when the solution answers for it. -/
theorem mem_keySet : v ∈ s.keySet ↔ ∃ a, s.get? v = some a := OrdMap.mem_keySet

/-- A merged solution has the variables of both. -/
theorem keySet_merge (s t : Solution) : (s.merge t).keySet = s.keySet ∪ t.keySet := by
  refine OrdSet.eq_of_mem_iff fun v => ?_
  rw [OrdSet.mem_union, mem_keySet, mem_keySet, mem_keySet, get?_merge]
  cases s.get? v <;> simp

/-- A binding adds its variable to the domain. -/
theorem mem_keySet_insert {w : Variable} {a : Term} :
    w ∈ (s.insert v a).keySet ↔ w = v ∨ w ∈ s.keySet := by
  rw [mem_keySet, mem_keySet, get?_insert]
  by_cases h : w = v <;> simp [h]

/-- The same as an equation. -/
theorem keySet_insert (s : Solution) (v : Variable) (a : Term) :
    (s.insert v a).keySet = s.keySet.insert v :=
  OrdSet.eq_of_mem_iff fun w => by rw [mem_keySet_insert, OrdSet.mem_insert]

/-- A restricted solution has the variables it may keep. -/
theorem keySet_restrict (s : Solution) (vars : VarSet) :
    (s.restrict vars).keySet = s.keySet ∩ vars := by
  refine OrdSet.eq_of_mem_iff fun v => ?_
  rw [OrdSet.mem_inter, mem_keySet, mem_keySet, get?_restrict]
  by_cases h : v ∈ vars <;> simp [h]

end Solution

/-- A binding adds its target, unless its expression may fail. -/
theorem keySet_bindValue (target : Variable) (e : Expression) (row : Solution) :
    (bindValue target e row).keySet = row.keySet.insert target ∨
      e.isTotal row.keySet = false ∧ (bindValue target e row).keySet = row.keySet := by
  rw [bindValue]
  cases hvalue : e.value row [] with
  | some a => exact .inl (Solution.keySet_insert row target a)
  | none =>
      refine .inr ⟨?_, rfl⟩
      cases e with
      | constant t => cases hvalue
      | bound v => cases hvalue
      | «variable» v =>
          rw [Expression.isTotal, Bool.eq_false_iff, Ne, OrdSet.contains_iff, Solution.mem_keySet]
          rintro ⟨a, ha⟩
          exact absurd (hvalue.symm.trans ha) (by simp)
      | _ => rfl

/-! ## Renamings -/

namespace Renaming

/-- A renaming renames the domain. -/
theorem keySet_solution (r : Renaming) (s : Solution) :
    (r.solution s).keySet = r.vars s.keySet := by
  have hstart : (s.filter fun v _ => r.keeps v).keySet = s.keySet.filter r.keeps := by
    refine OrdSet.eq_of_mem_iff fun v => ?_
    rw [OrdSet.mem_filter, Solution.mem_keySet, Solution.mem_keySet, OrdMap.get?_filter]
    cases s.get? v <;> simp
  rw [solution, vars]
  generalize (s.filter fun v _ => r.keeps v) = out at hstart ⊢
  generalize s.keySet.filter r.keeps = vars at hstart ⊢
  induction r.entries generalizing out vars with
  | nil => exact hstart
  | cons e rest ih =>
      obtain ⟨target, source⟩ := e
      rw [List.foldl_cons, List.foldl_cons]
      refine ih _ _ ?_
      dsimp only
      cases hsource : s.get? source with
      | some a =>
          rw [if_pos (OrdSet.contains_iff.2 (Solution.mem_keySet.2 ⟨a, hsource⟩)), ← hstart]
          exact Solution.keySet_insert out target a
      | none =>
          rw [if_neg fun h => ?_, ← hstart]
          · refine OrdSet.eq_of_mem_iff fun v => ?_
            rw [OrdSet.mem_erase, Solution.mem_keySet, Solution.mem_keySet, OrdMap.get?_erase]
            by_cases hv : v = target <;> simp [hv]
          · obtain ⟨a, ha⟩ := Solution.mem_keySet.1 (OrdSet.contains_iff.1 h)
            exact absurd (hsource.symm.trans ha) (by simp)

/-- What is bound after a renaming is bound after it also if more was bound before. -/
theorem vars_mono (r : Renaming) {s t : VarSet} (h : ∀ v ∈ s, v ∈ t) :
    ∀ v ∈ r.vars s, v ∈ r.vars t := by
  have hstart : ∀ v ∈ s.filter r.keeps, v ∈ t.filter r.keeps := fun v hv =>
    OrdSet.mem_filter.2 ⟨h v (OrdSet.mem_filter.1 hv).1, (OrdSet.mem_filter.1 hv).2⟩
  rw [vars, vars]
  generalize s.filter r.keeps = out at hstart ⊢
  generalize t.filter r.keeps = out' at hstart ⊢
  induction r.entries generalizing out out' with
  | nil => exact hstart
  | cons e rest ih =>
      obtain ⟨target, source⟩ := e
      rw [List.foldl_cons, List.foldl_cons]
      refine ih _ _ fun v hv => ?_
      dsimp only at hv ⊢
      split at hv
      · next hs =>
        rw [if_pos (OrdSet.contains_iff.2 (h _ (OrdSet.contains_iff.1 hs))), OrdSet.mem_insert]
        exact (OrdSet.mem_insert.1 hv).imp id (hstart v)
      · obtain ⟨hv, hne⟩ := OrdSet.mem_erase.1 hv
        split
        · exact OrdSet.mem_insert.2 (.inr (hstart v hv))
        · exact OrdSet.mem_erase.2 ⟨hstart v hv, hne⟩

end Renaming

/-! ## Matches -/

/-- A match adds the variables of the pattern. -/
theorem TriplePattern.mem_keySet_match? {p : TriplePattern} {t : Triple} {s r : Solution}
    (h : p.match? t s = some r) (v : Variable) : v ∈ r.keySet ↔ v ∈ s.keySet ∨ v ∈ p.vars := by
  obtain ⟨⟨hsubject, hpredicate, hobject⟩, hkeeps, hnew⟩ := match?_eq_some_iff.1 h
  rw [Solution.mem_keySet, Solution.mem_keySet, vars, Item.mem_vars]
  constructor
  · rintro ⟨a, ha⟩
    by_contra hnot
    rw [not_or] at hnot
    have hunbound : s.get? v = none := by
      cases hs : s.get? v with
      | none => rfl
      | some b => exact absurd ⟨b, hs⟩ hnot.1
    exact absurd (ha.symm.trans (hnew v hunbound hnot.2)) (by simp)
  · rintro (⟨a, ha⟩ | hv)
    · exact ⟨a, hkeeps v a ha⟩
    · simp only [items, List.mem_cons, List.not_mem_nil, or_false] at hv
      rcases hv with hv | hv | hv
      · exact ⟨_, by rw [← hv] at hsubject; exact hsubject⟩
      · exact ⟨_, by rw [← hv] at hpredicate; exact hpredicate⟩
      · exact ⟨_, by rw [← hv] at hobject; exact hobject⟩

/-- A match of an atom binds its variables. -/
theorem Atom.keySet_match? {a : Atom} {f : Fact} {r : Solution} (h : a.match? f = some r) :
    r.keySet = a.vars := by
  rw [match?] at h
  split at h
  · next hshape =>
    obtain ⟨hall, -, hnew⟩ := (Solution.unifyAll_eq_some_iff hshape.2.symm).1 h
    refine OrdSet.eq_of_mem_iff fun v => ?_
    rw [Solution.mem_keySet, vars, Item.mem_vars]
    constructor
    · rintro ⟨b, hb⟩
      by_contra hv
      exact absurd (hb.symm.trans (hnew v rfl hv)) (by simp)
    · intro hv
      obtain ⟨b, -, hb⟩ := exists_of_forall₂ hall hv
      exact ⟨b, hb⟩
  · cases h

/-- Matching several patterns adds the variables of them all. -/
theorem mem_keySet_of_mem_matchPatterns {patterns : List TriplePattern} {triples : List Triple}
    {start r : Solution} (h : r ∈ matchPatterns patterns triples start) (v : Variable) :
    v ∈ r.keySet ↔ v ∈ start.keySet ∨ v ∈ OrdSet.unionOf TriplePattern.vars patterns := by
  rw [matchPatterns] at h
  suffices ∀ rows : List Solution, r ∈ patterns.foldl (fun rows p =>
      rows.flatMap fun row => triples.filterMap fun t => p.match? t row) rows →
      ∃ row ∈ rows, v ∈ r.keySet ↔ v ∈ row.keySet ∨ ∃ p ∈ patterns, v ∈ p.vars by
    obtain ⟨row, hrow, hv⟩ := this _ h
    rw [hv, List.mem_singleton.1 hrow, OrdSet.mem_unionOf]
  clear h
  induction patterns with
  | nil => exact fun rows hr => ⟨r, hr, by simp⟩
  | cons p rest ih =>
      intro rows hr
      obtain ⟨row', hrow', hv⟩ := ih _ hr
      obtain ⟨row, hrow, hmatch⟩ := List.mem_flatMap.1 hrow'
      obtain ⟨t, -, hmatch⟩ := List.mem_filterMap.1 hmatch
      refine ⟨row, hrow, ?_⟩
      rw [hv, TriplePattern.mem_keySet_match? hmatch]
      simp [or_assoc]

namespace Source

variable {src : Source}

/-- What a scan finds binds its variables. -/
theorem keySet_of_mem_scan {s : IndexScan} {r : Solution} (h : r ∈ src.scan s) :
    r.keySet = s.vars := by
  refine OrdSet.eq_of_mem_iff fun v => ?_
  obtain ⟨patterns, graph, source⟩ := s
  rw [scan] at h
  rw [IndexScan.vars, OrdSet.mem_union, Item.mem_vars]
  rcases graph with _ | (w | g)
  case none =>
      rw [mem_keySet_of_mem_matchPatterns h, Solution.mem_keySet]
      simp
  case some.term =>
      dsimp only at h
      split at h
      · rw [mem_keySet_of_mem_matchPatterns h, Solution.mem_keySet]
        simp
      · cases h
  case some.var =>
      obtain ⟨g, -, h⟩ := List.mem_flatMap.1 h
      rw [mem_keySet_of_mem_matchPatterns h, Solution.mem_keySet]
      simp only [OrdMap.get?_singleton]
      by_cases hv : v = w <;> simp [hv]

/-- What a probe finds binds the variable of its graph. -/
theorem keySet_of_mem_probe {graph : Option Item} {r : Solution} (h : r ∈ src.probe graph) :
    r.keySet = Item.vars graph.toList := by
  refine OrdSet.eq_of_mem_iff fun v => ?_
  rw [Item.mem_vars, Solution.mem_keySet]
  match graph with
  | none =>
      obtain rfl := List.mem_singleton.1 h
      simp
  | some (.term g) =>
      obtain rfl := List.mem_singleton.1 h
      simp
  | some (.var w) =>
      obtain ⟨g, -, rfl⟩ := List.mem_map.1 h
      simp only [OrdMap.get?_singleton]
      by_cases hv : v = w <;> simp [hv]

end Source

/-! ## Groups -/

section Groups

variable {bindings : List (Variable × Option Term)} {start : Solution} {v : Variable}

/-- What is bound after adding those bindings that have a value. -/
theorem mem_keySet_foldl_bindings :
    v ∈ (bindings.foldl (fun (s : Solution) e =>
      match e.2 with
      | some t => s.insert e.1 t
      | none => s) start).keySet ↔ v ∈ start.keySet ∨ ∃ t, (v, some t) ∈ bindings := by
  induction bindings generalizing start with
  | nil => simp
  | cons e rest ih =>
      obtain ⟨w, t⟩ := e
      rw [List.foldl_cons, ih]
      cases t with
      | none => simp
      | some t =>
          dsimp only
          rw [Solution.mem_keySet_insert]
          simp only [List.mem_cons, Prod.mk.injEq, Option.some.injEq, exists_or, exists_eq_right]
          tauto

variable {keys : List Variable} {aggregates : List (Variable × Aggregate)}
  {key : List (Option Term)} {rows : List Solution}

/-- A group binds the keys that have a value and the aggregates that have one. -/
theorem mem_keySet_groupSolution : v ∈ (groupSolution keys aggregates key rows).keySet ↔
    (∃ t, (v, some t) ∈ keys.zip key) ∨ ∃ a, (v, a) ∈ aggregates ∧ ∃ t, a.value rows = some t := by
  refine mem_keySet_foldl_bindings.trans (or_congr (mem_keySet_foldl_bindings.trans ?_) ?_)
  · rw [Solution.mem_keySet]
    simp
  constructor
  · rintro ⟨t, ht⟩
    obtain ⟨⟨w, a⟩, ha, he⟩ := List.mem_map.1 ht
    obtain ⟨rfl, ha'⟩ := Prod.mk.inj he
    exact ⟨a, ha, t, ha'⟩
  · rintro ⟨a, ha, t, ht⟩
    exact ⟨t, List.mem_map.2 ⟨(v, a), ha, by rw [ht]⟩⟩

/-- A key has a value in its group when it has one in each row. -/
theorem mem_zip_groupKey {row : Solution} {t : Term} :
    (v, some t) ∈ keys.zip (groupKey keys row) ↔ v ∈ keys ∧ row.get? v = some t := by
  rw [groupKey, List.zip_map_right, List.mem_map]
  constructor
  · rintro ⟨⟨w, w'⟩, hw, he⟩
    obtain ⟨rfl, ht⟩ := Prod.mk.inj he
    obtain ⟨hmem, hw'⟩ := List.of_mem_zip hw
    have hsame : w = w' := by
      rw [List.zip_eq_zipWith, List.zipWith_self, List.mem_map] at hw
      obtain ⟨u, -, hu⟩ := hw
      obtain ⟨rfl, rfl⟩ := Prod.mk.inj hu
      rfl
    subst hsame
    exact ⟨hmem, ht⟩
  · rintro ⟨hv, ht⟩
    refine ⟨(v, v), ?_, Prod.ext rfl ht⟩
    rw [List.zip_eq_zipWith, List.zipWith_self]
    exact List.mem_map.2 ⟨v, hv, rfl⟩

/-- A group binds the key variables that its rows bind, and otherwise aggregates only. -/
theorem keySet_of_mem_groupSolutions {r : Solution} (h : r ∈ groupSolutions keys aggregates rows) :
    (rows = [] ∧ keys = [] ∧ ∀ v ∈ r.keySet, v ∈ aggregates.map Prod.fst) ∨
      ∃ row ∈ rows, (∀ v ∈ keys, v ∈ row.keySet → v ∈ r.keySet) ∧
        ∀ v ∈ r.keySet, v ∈ keys ++ aggregates.map Prod.fst := by
  rw [groupSolutions] at h
  obtain ⟨key, hkey, rfl⟩ := List.mem_map.1 h
  split at hkey
  · next hnone =>
    rw [Bool.and_eq_true, List.isEmpty_iff, List.isEmpty_iff] at hnone
    obtain ⟨rfl, rfl⟩ := hnone
    refine .inl ⟨rfl, rfl, fun v hv => ?_⟩
    rcases mem_keySet_groupSolution.1 hv with ⟨t, ht⟩ | ⟨a, ha, -⟩
    · simp at ht
    · exact List.mem_map_of_mem ha
  · rw [mem_distinctOf] at hkey
    obtain ⟨row, hrow, rfl⟩ := List.mem_map.1 hkey
    refine .inr ⟨row, hrow, fun v hv hbound => ?_, fun v hv => ?_⟩
    · obtain ⟨t, ht⟩ := Solution.mem_keySet.1 hbound
      exact mem_keySet_groupSolution.2 (.inl ⟨t, mem_zip_groupKey.2 ⟨hv, ht⟩⟩)
    · rw [List.mem_append]
      rcases mem_keySet_groupSolution.1 hv with ⟨t, ht⟩ | ⟨a, ha, -⟩
      · exact .inl (mem_zip_groupKey.1 ht).1
      · exact .inr (List.mem_map_of_mem ha)

end Groups

end QuadAlgebra
