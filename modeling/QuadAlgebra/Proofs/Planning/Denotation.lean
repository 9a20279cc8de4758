import QuadAlgebra.Planning.Document
import QuadAlgebra.Proofs.Semantics.Scans
import QuadAlgebra.Syntax.Build

/-!
# The meaning of group patterns

The solutions of a group pattern in a graph, defined on its syntax tree alone. The elements of a
group are read from left to right, each one extending the solutions so far, and in the end all
filters of the group are applied to what has come out; an existence pattern holds for a solution
that is compatible with one of its own (`Group.solutions`).

Patterns are made of triples, paths that are a single predicate, nested groups, unions, optional and
subtracted patterns, bindings, filters and constant graphs here (`Group.isCore`). A solution binds
no other variables than those in scope (`Group.binds_of_mem_solutions`).
-/

namespace QuadAlgebra

/-! ## Core patterns -/

mutual

/-- Whether a group is made of the parts that the meaning covers. -/
def Group.isCore : Group → Bool
  | ⟨elements⟩ => elementsCore elements

def elementsCore : List Element → Bool
  | [] => true
  | e :: rest => e.isCore && elementsCore rest

def Element.isCore : Element → Bool
  | .triple _ | .bind _ _ => true
  | .path p => p.path.predicate?.isSome
  | .group g | .optional g | .minus g | .graph (.term _) g => g.isCore
  | .union branches => groupsCore branches
  | .filter e => e.isCore
  | .graph (.var _) _ | .subSelect _ | .service _ _ _ | .window _ _ | .atom _ => false

def groupsCore : List Group → Bool
  | [] => true
  | g :: rest => g.isCore && groupsCore rest

/-- Whether the existence patterns of an expression are core patterns. -/
def Expression.isCore : Expression → Bool
  | .existence _ g => g.isCore
  | .binary l _ r => l.isCore && r.isCore
  | .unary _ e => e.isCore
  | .call _ args => expressionsCore args
  | _ => true

def expressionsCore : List Expression → Bool
  | [] => true
  | e :: rest => e.isCore && expressionsCore rest

end

/-! ## Solutions -/

section Meaning

variable (src : Source)

mutual

/-- The solutions of a group in a graph. -/
def Group.solutions (graph : Option Term) : Group → List Solution
  | ⟨elements⟩ => (elementsExtend graph elements [∅]).filter (filtersHold graph elements)

/-- The solutions that some elements, read from left to right, make of other solutions. -/
def elementsExtend (graph : Option Term) : List Element → List Solution → List Solution
  | [], rows => rows
  | e :: rest, rows => elementsExtend graph rest (e.extend graph rows)

/-- The solutions that an element makes of the solutions before it. -/
def Element.extend (graph : Option Term) : Element → List Solution → List Solution
  | .triple p, rows => joinSolutions rows (p.solutions (src.activeTriples graph))
  | .path ⟨s, .predicate iri, o⟩, rows =>
    joinSolutions rows ((TriplePattern.mk s (.term iri) o).solutions (src.activeTriples graph))
  | .group g, rows => joinSolutions rows (g.solutions graph)
  | .union [], rows => rows
  | .union (g :: rest), rows => joinSolutions rows (g.solutions graph ++ groupsSolutions graph rest)
  | .optional g, rows => leftJoinSolutions rows (g.solutions graph)
  | .minus g, rows => subtractSolutions rows (g.solutions graph)
  | .bind e target, rows => rows.map fun row =>
    match e.meaning graph row with
    | some t => row.insert target t
    | none => row
  | .graph (.term name) g, rows => joinSolutions rows (g.solutions (some name))
  | _, rows => rows

/-- The solutions of some groups, one after the other. -/
def groupsSolutions (graph : Option Term) : List Group → List Solution
  | [] => []
  | g :: rest => g.solutions graph ++ groupsSolutions graph rest

/-- Whether all filters among some elements hold. -/
def filtersHold (graph : Option Term) : List Element → Solution → Bool
  | [], _ => true
  | .filter e :: rest, row =>
    ((e.meaning graph row).bind Term.effectiveBool?).getD false && filtersHold graph rest row
  | _ :: rest, row => filtersHold graph rest row

/-- The value of an expression for a solution. An existence pattern is asked for a solution that is
compatible. -/
def Expression.meaning (graph : Option Term) : Expression → Solution → Option Term
  | .variable v, row => row.get? v
  | .constant t, _ => some t
  | .bound v, row => some (.boolean (row.contains v))
  | .existence positive g, row =>
    some (.boolean ((g.solutions graph).any (·.compatible row) == positive))
  | .unary s e, row => (e.meaning graph row).bind s.applyOne
  | .binary l s r, row =>
    let truth (t : Option Term) : Option Bool := t.bind Term.effectiveBool?
    match s with
    | .and => (conjunction (truth (l.meaning graph row)) (truth (r.meaning graph row))).map .boolean
    | .or => (disjunction (truth (l.meaning graph row)) (truth (r.meaning graph row))).map .boolean
    | s => (l.meaning graph row).bind fun a => (r.meaning graph row).bind fun b => s.apply a b
  | .call name args, row => (meanings graph args row).bind (applyFunction name)
  | .aggregate _, _ => none

/-- The values of expressions, if all have one. -/
def meanings (graph : Option Term) : List Expression → Solution → Option (List Term)
  | [], _ => some []
  | e :: rest, row =>
    (e.meaning graph row).bind fun t => (meanings graph rest row).map (t :: ·)

end

end Meaning

/-! ## Expressions over found solutions -/

section Values

variable {src : Source} {graph : Option Term} {row : Solution}

/-- The solutions that have been found for some patterns are those of the patterns. -/
abbrev FoundFor (src : Source) (graph : Option Term) (found : List (List Solution))
    (patterns : List Group) : Prop :=
  List.Forall₂ (fun rows g => rows.Perm (Group.solutions src graph g)) found patterns

theorem FoundFor.take {found : List (List Solution)} {l r : List Group}
    (h : FoundFor src graph found (l ++ r)) : FoundFor src graph (found.take l.length) l := by
  have := List.forall₂_take l.length h
  rwa [List.take_left'] at this
  rfl

theorem FoundFor.drop {found : List (List Solution)} {l r : List Group}
    (h : FoundFor src graph found (l ++ r)) : FoundFor src graph (found.drop l.length) r := by
  have := List.forall₂_drop l.length h
  rwa [List.drop_left'] at this
  rfl

mutual

/-- If the solutions of its existence patterns have been found, an expression is evaluated to its
meaning. -/
theorem Expression.value_eq_meaning : ∀ (e : Expression) (found : List (List Solution)),
    FoundFor src graph found e.existencePatterns → e.value row found = e.meaning src graph row
  | .variable v, _, _ => rfl
  | .constant t, _, _ => rfl
  | .bound v, _, _ => rfl
  | .aggregate a, _, _ => rfl
  | .existence positive g, found, h => by
    cases h with
    | cons hg hrest =>
        rw [Expression.value, Expression.meaning, List.head?_cons, Option.map_some, hg.any_eq]
  | .unary s e, found, h => by
    rw [Expression.value, Expression.meaning, e.value_eq_meaning found h]
  | .binary l s r, found, h => by
    have hl := l.value_eq_meaning (found.take l.existencePatterns.length) (FoundFor.take h)
    have hr := r.value_eq_meaning (found.drop l.existencePatterns.length) (FoundFor.drop h)
    cases s <;> simp only [Expression.value, Expression.meaning, hl, hr]
  | .call name args, found, h => by
    rw [Expression.value, Expression.meaning, values_eq_meanings args found h]

theorem values_eq_meanings : ∀ (args : List Expression) (found : List (List Solution)),
    FoundFor src graph found (Expression.existencePatternsOf args) →
      Expression.values row args found = meanings src graph args row
  | [], _, _ => rfl
  | e :: rest, found, h => by
    have he := e.value_eq_meaning (found.take e.existencePatterns.length) (FoundFor.take h)
    have hrest := values_eq_meanings rest (found.drop e.existencePatterns.length)
      (FoundFor.drop h)
    rw [Expression.values, meanings, he, hrest]

end

end Values

/-! ## Variables of solutions -/

/-- A solution binds no variables but the given ones. -/
def Solution.BindsOnly (s : Solution) (vars : VarSet) : Prop :=
  ∀ v t, s.get? v = some t → v ∈ vars

namespace Solution

variable {s t : Solution} {vars vars' : VarSet}

theorem bindsOnly_empty : BindsOnly ∅ vars := fun v t h => by simp at h

theorem BindsOnly.mono (h : s.BindsOnly vars) (hsub : ∀ v, v ∈ vars → v ∈ vars') :
    s.BindsOnly vars' := fun v t hv => hsub v (h v t hv)

theorem BindsOnly.merge (hs : s.BindsOnly vars) (ht : t.BindsOnly vars') :
    (s.merge t).BindsOnly (vars ∪ vars') := by
  intro v b hv
  rw [OrdSet.mem_union]
  rw [get?_merge] at hv
  cases hsv : s.get? v with
  | some c => exact Or.inl (hs v c hsv)
  | none =>
      rw [hsv] at hv
      exact Or.inr (ht v b hv)

end Solution

section Scope

variable {vars vars' : VarSet} {l r : List Solution}

theorem bindsOnly_joinSolutions (hl : ∀ s ∈ l, s.BindsOnly vars) (hr : ∀ s ∈ r, s.BindsOnly vars') :
    ∀ s ∈ joinSolutions l r, s.BindsOnly (vars ∪ vars') := by
  intro s hs
  obtain ⟨a, ha, b, hb, -, rfl⟩ := mem_joinSolutions.1 hs
  exact (hl a ha).merge (hr b hb)

theorem bindsOnly_leftJoinSolutions (hl : ∀ s ∈ l, s.BindsOnly vars)
    (hr : ∀ s ∈ r, s.BindsOnly vars') :
    ∀ s ∈ leftJoinSolutions l r, s.BindsOnly (vars ∪ vars') := by
  intro s hs
  obtain ⟨a, ha, hs⟩ := List.mem_flatMap.1 hs
  dsimp only at hs
  split at hs
  · rw [List.mem_singleton.1 hs]
    exact (hl a ha).mono fun v hv => OrdSet.mem_union.2 (Or.inl hv)
  · obtain ⟨b, hb, rfl⟩ := List.mem_map.1 hs
    exact (hl a ha).merge (hr b (List.mem_filter.1 hb).1)

theorem bindsOnly_of_mem_patternSolutions {p : TriplePattern} {triples : List Triple} {s : Solution}
    (h : s ∈ p.solutions triples) : s.BindsOnly p.vars := by
  obtain ⟨-, hnew⟩ := TriplePattern.mem_solutions_iff.1 h
  intro v b hv
  rw [TriplePattern.vars, Item.mem_vars]
  by_contra hnot
  rw [hnew v hnot] at hv
  cases hv

variable {src : Source}

mutual

/-- A solution of a core pattern binds no variable that is not in scope. -/
theorem Group.binds_of_mem_solutions : ∀ (g : Group) (graph : Option Term), g.isCore = true →
    ∀ s ∈ g.solutions src graph, s.BindsOnly g.scope
  | ⟨elements⟩, graph, hcore, s, hs => by
    rw [Group.solutions, List.mem_filter] at hs
    have hstart : ∀ s ∈ ([∅] : List Solution), s.BindsOnly ∅ := fun s hs => by
      rw [List.mem_singleton.1 hs]
      exact Solution.bindsOnly_empty
    refine (bindsOnly_elementsExtend elements graph hcore ∅ [∅] hstart s hs.1).mono fun v hv => ?_
    rw [OrdSet.mem_union] at hv
    exact hv.resolve_left (OrdSet.not_mem_empty v)

theorem bindsOnly_elementsExtend : ∀ (elements : List Element) (graph : Option Term),
    elementsCore elements = true → ∀ (vars : VarSet) (rows : List Solution),
      (∀ s ∈ rows, s.BindsOnly vars) →
        ∀ s ∈ elementsExtend src graph elements rows, s.BindsOnly (vars ∪ elementsScope elements)
  | [], _, _, vars, rows, hrows, s, hs =>
    (hrows s hs).mono fun v hv => OrdSet.mem_union.2 (Or.inl hv)
  | e :: rest, graph, hcore, vars, rows, hrows, s, hs => by
    rw [elementsCore, Bool.and_eq_true] at hcore
    have hstep := e.bindsOnly_extend graph hcore.1 vars rows hrows
    refine (bindsOnly_elementsExtend rest graph hcore.2 _ _ hstep s hs).mono fun v hv => ?_
    rw [OrdSet.mem_union, OrdSet.mem_union] at hv
    rw [elementsScope, OrdSet.mem_union, OrdSet.mem_union]
    exact or_assoc.1 hv

theorem Element.bindsOnly_extend : ∀ (e : Element) (graph : Option Term), e.isCore = true →
    ∀ (vars : VarSet) (rows : List Solution), (∀ s ∈ rows, s.BindsOnly vars) →
      ∀ s ∈ e.extend src graph rows, s.BindsOnly (vars ∪ e.scope)
  | .triple p, graph, _, vars, rows, hrows =>
    bindsOnly_joinSolutions hrows fun s hs => bindsOnly_of_mem_patternSolutions hs
  | .path ⟨s, .predicate iri, o⟩, graph, _, vars, rows, hrows => by
    refine bindsOnly_joinSolutions hrows fun r hr => ?_
    refine (bindsOnly_of_mem_patternSolutions hr).mono fun v hv => ?_
    rw [TriplePattern.vars, Item.mem_vars] at hv
    rw [Element.scope, Item.mem_vars]
    simpa [TriplePattern.items] using hv
  | .group g, graph, hcore, vars, rows, hrows =>
    bindsOnly_joinSolutions hrows (g.binds_of_mem_solutions graph hcore)
  | .union [], _, _, vars, rows, hrows => fun s hs =>
    (hrows s hs).mono fun v hv => OrdSet.mem_union.2 (Or.inl hv)
  | .union (g :: rest), graph, hcore, vars, rows, hrows => by
    have hall := bindsOnly_groupsSolutions (g :: rest) graph hcore
    exact bindsOnly_joinSolutions hrows hall
  | .optional g, graph, hcore, vars, rows, hrows =>
    bindsOnly_leftJoinSolutions hrows (g.binds_of_mem_solutions graph hcore)
  | .minus g, _, _, vars, rows, hrows => fun s hs =>
    (hrows s (List.mem_filter.1 hs).1).mono fun v hv => OrdSet.mem_union.2 (Or.inl hv)
  | .bind e target, graph, _, vars, rows, hrows => fun s hs => by
    obtain ⟨row, hrow, rfl⟩ := List.mem_map.1 hs
    intro v b hv
    rw [Element.scope, OrdSet.mem_union, OrdSet.mem_singleton]
    split at hv
    · rw [Solution.get?_insert] at hv
      split at hv
      · next he => exact Or.inr he
      · exact Or.inl (hrows row hrow v b hv)
    · exact Or.inl (hrows row hrow v b hv)
  | .graph (.term name) g, graph, hcore, vars, rows, hrows => by
    refine fun s hs => (bindsOnly_joinSolutions hrows
      (g.binds_of_mem_solutions (some name) hcore) s hs).mono fun v hv => ?_
    rw [OrdSet.mem_union] at hv
    rw [Element.scope, OrdSet.mem_union, OrdSet.mem_union]
    exact hv.imp_right Or.inr
  | .filter _, _, _, vars, rows, hrows => fun s hs =>
    (hrows s hs).mono fun v hv => OrdSet.mem_union.2 (Or.inl hv)

theorem bindsOnly_groupsSolutions : ∀ (groups : List Group) (graph : Option Term),
    groupsCore groups = true →
      ∀ s ∈ groupsSolutions src graph groups, s.BindsOnly (groupsScope groups)
  | [], _, _, s, hs => absurd hs List.not_mem_nil
  | g :: rest, graph, hcore, s, hs => by
    rw [groupsCore, Bool.and_eq_true] at hcore
    rw [groupsSolutions, List.mem_append] at hs
    rw [groupsScope]
    rcases hs with hs | hs
    · exact (g.binds_of_mem_solutions graph hcore.1 s hs).mono fun v hv =>
        OrdSet.mem_union.2 (Or.inl hv)
    · exact (bindsOnly_groupsSolutions rest graph hcore.2 s hs).mono fun v hv =>
        OrdSet.mem_union.2 (Or.inr hv)

end

end Scope

end QuadAlgebra
