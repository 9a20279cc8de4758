import QuadAlgebra.Planning.Draft
import QuadAlgebra.Proofs.Solution.Join

/-!
# Scans

A scan of some patterns in the default graph, or in one named graph, has the join of the solutions
of the patterns (`scan_eq`). A scan that the store proves to be empty has no solutions in whatever
graphs it is evaluated (`ScanFactory.provesEmpty_ofStore`).
-/

namespace QuadAlgebra

variable {src : Source}

/-- The triples of the default graph, or of a named graph that can be seen. -/
def Source.activeTriples (src : Source) : Option Term → List Triple
  | none => (src.store.defaultGraph src.dataset).toList
  | some g =>
    if (src.store.visibleGraphs src.dataset).contains g then src.store.triplesIn (some g) else []

theorem scan_eq (patterns : List TriplePattern) (hne : patterns ≠ []) (graph : Option Term)
    (source : ScanSource) : src.scan ⟨patterns, graph.map .term, source⟩ =
      joinMany (patterns.map fun p => p.solutions (src.activeTriples graph)) := by
  have hmatch : ∀ triples, matchPatterns patterns triples ∅ =
      joinMany (patterns.map fun p => p.solutions triples) := fun triples =>
    matchPatterns_eq_joins patterns triples ∅
  cases graph with
  | none => exact hmatch _
  | some g =>
      simp only [Source.scan, Option.map_some, Source.activeTriples]
      split
      · exact hmatch _
      · -- in an empty graph the first pattern has no solution
        obtain ⟨p, rest, rfl⟩ := List.exists_cons_of_ne_nil hne
        rw [List.map_cons, joinMany_cons]
        rfl

/-- A solution of a pattern binds its items to the parts of a triple, and nothing else. -/
theorem TriplePattern.mem_solutions_iff {p : TriplePattern} {triples : List Triple}
    {r : Solution} : r ∈ p.solutions triples ↔
      (∃ t ∈ triples, r.resolve p.subject = some t.subject ∧
        r.resolve p.predicate = some t.predicate ∧ r.resolve p.object = some t.object) ∧
      ∀ v, Item.var v ∉ p.items → r.get? v = none := by
  rw [TriplePattern.solutions, List.mem_filterMap]
  simp only [TriplePattern.match?_eq_some_iff]
  constructor
  · rintro ⟨t, ht, hparts, -, hnew⟩
    exact ⟨⟨t, ht, hparts⟩, fun v hv => hnew v rfl hv⟩
  · rintro ⟨⟨t, ht, hparts⟩, hnew⟩
    exact ⟨t, ht, hparts, fun v b hv => by simp at hv, fun v _ hv => hnew v hv⟩

/-! ## Scans without solutions -/

theorem TriplePattern.terms_of_match? {t : TriplePattern} {triple : Triple} {row row' : Solution}
    (h : t.match? triple row = some row') : (t.subject.term?.all (· == triple.subject) &&
      t.predicate.term?.all (· == triple.predicate) && t.object.term?.all (· == triple.object)) =
        true := by
  have hunify {s s' : Solution} {i : Item} {a : Term} (h : s.unify i a = some s') :
      i.term?.all (· == a) = true := by
    cases i with
    | var v => rfl
    | term b =>
        unfold Solution.unify at h
        dsimp only at h
        split at h
        · next hb => simp [Item.term?, hb]
        · cases h
  obtain ⟨s₁, h₁, h⟩ := Option.bind_eq_some_iff.1 h
  obtain ⟨s₂, h₂, h₃⟩ := Option.bind_eq_some_iff.1 h
  rw [hunify h₁, hunify h₂, hunify h₃]
  rfl

/-- Where a pattern matches no triple, all of them together match nothing. -/
theorem matchPatterns_eq_nil {patterns : List TriplePattern} {triples : List Triple}
    {start : Solution}
    {t : TriplePattern} (ht : t ∈ patterns)
    (hnone : ∀ triple ∈ triples, ∀ row, t.match? triple row = none) :
    matchPatterns patterns triples start = [] := by
  obtain ⟨before, after, rfl⟩ := List.append_of_mem ht
  have hnil (rest : List TriplePattern) : rest.foldl (fun rows p =>
      rows.flatMap fun row => triples.filterMap fun t => p.match? t row)
      ([] : List Solution) = [] := by
    induction rest with
    | nil => rfl
    | cons _ _ ih => exact ih
  unfold matchPatterns
  rw [List.foldl_append, List.foldl_cons]
  convert hnil after using 2
  rw [List.flatMap_eq_nil_iff]
  exact fun row _ => List.filterMap_eq_nil_iff.2 fun triple htriple => hnone triple htriple row

/-- What is known of scans of a store in memory is true. -/
theorem ScanFactory.provesEmpty_ofStore {name : String} {store : Store} {dataset : Dataset}
    {s : IndexScan} (h : (ofStore name store).provesEmpty s = true) :
    (⟨store, dataset⟩ : Source).scan s = [] := by
  simp only [ofStore, Bool.and_eq_true, List.any_eq_true, Bool.not_eq_true'] at h
  obtain ⟨-, t, ht, hmatch⟩ := h
  have hnone (graph : Option Term) :
      ∀ triple ∈ store.triplesIn graph, ∀ row, t.match? triple row = none := by
    intro triple htriple row
    by_contra hrow
    obtain ⟨row', hrow⟩ := Option.ne_none_iff_exists'.1 hrow
    obtain ⟨q, hq, rfl⟩ := List.mem_map.1 htriple
    rw [Store.hasMatch, List.any_eq_false] at hmatch
    exact hmatch q (List.mem_filter.1 hq).1 (TriplePattern.terms_of_match? hrow)
  unfold Source.scan
  dsimp only
  split
  · refine matchPatterns_eq_nil ht fun triple htriple => ?_
    rw [OrdSet.mem_toList, Store.defaultGraph] at htriple
    split at htriple
    · exact hnone none triple (OrdSet.mem_ofList.1 htriple)
    · obtain ⟨g, -, htriple⟩ := List.mem_flatMap.1 (OrdSet.mem_ofList.1 htriple)
      exact hnone (some g) triple htriple
  · next g _ =>
    split
    · exact matchPatterns_eq_nil ht (hnone (some g))
    · rfl
  · exact List.flatMap_eq_nil_iff.2 fun g _ => matchPatterns_eq_nil ht (hnone (some g))

end QuadAlgebra
