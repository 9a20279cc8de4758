import QuadAlgebra.Proofs.Semantics.Emission
import QuadAlgebra.Proofs.Typing.Kinds
import QuadAlgebra.Proofs.Variables.Domains

/-!
# What operators make of domains

The domain of a solution that an operator emits depends on the domains of the solutions that it
reads, and for most operators on nothing else. `Operator.Starts` says which domains an operator
makes without reading anything, `Operator.Turns` what it makes of the domain of a single row; left
joins and joins make unions of several domains. Nothing else is ever emitted
(`Operator.made_of_emit`).
-/

namespace QuadAlgebra

/-! ## What one operator makes of domains -/

namespace Operator

variable {γ δ : Type}

/-- The domains that an operator shows without reading anything. -/
def Starts (op : Operator γ) (D : VarSet) : Prop :=
  match op with
  | .root => D = ∅
  | .matchTriple p => D = p.vars
  | .matchAtom a => D = a.vars
  | .group keys aggregates => keys = [] ∧ ∀ v ∈ D, v ∈ aggregates.map Prod.fst
  | _ => False

/-- The domains that an operator makes of the domain of a single row on an operand. -/
def Turns (op : Operator γ) (operand : Nat) (E D : VarSet) : Prop :=
  match op with
  | .scan s => D = E ∪ s.vars
  | .probe graph => D = E ∪ Item.vars graph.toList
  | .projection vars => D = E ∩ vars
  | .bind target e => D = E.insert target ∨ e.isTotal E = false ∧ D = E
  | .replaceVar r => D = r.vars E
  | .group keys aggregates =>
    (∀ v ∈ keys, v ∈ E → v ∈ D) ∧ ∀ v ∈ D, v ∈ keys ++ aggregates.map Prod.fst
  | .optional | .minus => operand = 0 ∧ D = E
  | .result _ | .union | .filter _ | .ruleFilter _ | .sort _ | .limit _ | .offset _ | .distinct
  | .indexDistinct | .window _ => D = E
  | _ => False

@[simp] theorem starts_withNested (op : Operator γ) (nested : List (Nat × δ)) :
    (op.withNested nested).Starts = op.Starts := by
  cases op <;> rfl

@[simp] theorem turns_withNested (op : Operator γ) (nested : List (Nat × δ)) :
    (op.withNested nested).Turns = op.Turns := by
  cases op <;> rfl

/-! ## Rows of one operator -/

/-- The solutions among some rows. -/
abbrev solutionsIn (rows : List Row) : List Solution := rows.filterMap Row.solution?

end Operator

theorem mem_solutionsIn {rows : List Row} {s : Solution} :
    s ∈ Operator.solutionsIn rows ↔ .solution s ∈ rows := by
  rw [List.mem_filterMap]
  constructor
  · rintro ⟨row, hrow, hs⟩
    cases row with
    | solution s' =>
        obtain rfl := Option.some.inj hs
        exact hrow
    | quad q => cases hs
    | fact f => cases hs
    | action a => cases hs
  · exact fun h => ⟨_, h, rfl⟩

@[simp] theorem solutionsIn_map (l : List Solution) :
    Operator.solutionsIn (l.map .solution) = l := by
  rw [Operator.solutionsIn, List.filterMap_map]
  exact List.filterMap_some

theorem map_solutionsIn {rows : List Row} (h : ∀ row ∈ rows, ∃ s, row = .solution s) :
    (Operator.solutionsIn rows).map .solution = rows := by
  induction rows with
  | nil => rfl
  | cons row rest ih =>
      obtain ⟨s, rfl⟩ := h row List.mem_cons_self
      change Row.solution s :: (Operator.solutionsIn rest).map Row.solution = _
      rw [ih fun row hrow => h row (List.mem_cons_of_mem _ hrow)]

theorem eq_solutionsIn_of_expectSolutions {id : OperatorId} {rows : List Row} {l : List Solution}
    (h : expectSolutions id rows = .ok l) : l = Operator.solutionsIn rows := by
  rw [eq_map_of_expectSolutions h, solutionsIn_map]

theorem eq_map_of_mapM_expectSolutions {id : OperatorId} {operands : Operands}
    {lists : List (List Solution)}
    (h : operands.mapM (fun o => expectSolutions id o.2) = .ok lists) :
    lists = operands.map fun o => Operator.solutionsIn o.2 := by
  have hall := forall₂_of_mapM_ok h
  clear h
  induction hall with
  | nil => rfl
  | cons ho _ ih => rw [List.map_cons, ← eq_solutionsIn_of_expectSolutions ho, ih]

/-- A solution of a join comes from one solution of each operand, which binds what these bind. -/
theorem exists_of_mem_joinMany {operands : Operands} (hnodup : (operands.map Prod.fst).Nodup)
    {s : Solution} (h : s ∈ joinMany (operands.map fun o => Operator.solutionsIn o.2)) :
    ∃ part : Nat → Solution, (∀ o ∈ operands, part o.1 ∈ Operator.solutionsIn o.2) ∧
      ∀ v, v ∈ s.keySet ↔ ∃ o ∈ operands, v ∈ (part o.1).keySet := by
  induction operands generalizing s with
  | nil =>
      obtain rfl := List.mem_singleton.1 h
      exact ⟨fun _ => ∅, by simp, fun v => by simp [Solution.mem_keySet]⟩
  | cons o rest ih =>
      rw [List.map_cons, joinMany_cons, mem_joinSolutions] at h
      obtain ⟨a, ha, b, hb, -, rfl⟩ := h
      rw [List.map_cons, List.nodup_cons] at hnodup
      obtain ⟨part, hpart, hdomain⟩ := ih hnodup.2 hb
      have hother : ∀ o' ∈ rest, o'.1 ≠ o.1 := fun o' ho' he =>
        hnodup.1 (he ▸ List.mem_map_of_mem ho')
      refine ⟨fun k => if k = o.1 then a else part k, fun o' ho' => ?_, fun v => ?_⟩
      · rcases List.mem_cons.1 ho' with rfl | ho'
        · simpa using ha
        · simpa only [if_neg (hother o' ho')] using hpart o' ho'
      · simp only [Solution.keySet_merge, OrdSet.mem_union, hdomain, List.mem_cons,
          exists_eq_or_imp,
          if_true]
        refine or_congr Iff.rfl (exists_congr fun o' => and_congr_right fun ho' => ?_)
        rw [if_neg (hother o' ho')]

namespace Operator

/-- The ways in which an operator comes to a solution with a given domain. -/
inductive Made {γ : Type} (op : Operator γ) (operands : Operands) (D : VarSet) : Prop
  | starts (h : op.Starts D)
  | turns (o : Nat × List Row) (ho : o ∈ operands) (r : Solution) (hr : .solution r ∈ o.2)
    (h : op.Turns o.1 r.keySet D)
  | extends (hop : op.kind = .optional) (o o' : Nat × List Row) (ho : o ∈ operands)
    (ho' : o' ∈ operands) (hleft : o.1 = 0) (hright : o'.1 ≠ 0) (r r' : Solution)
    (hr : .solution r ∈ o.2) (hr' : .solution r' ∈ o'.2) (h : D = r.keySet ∪ r'.keySet)
  | joins (hop : op.kind = .join) (part : Nat → Solution)
    (hpart : ∀ o ∈ operands, .solution (part o.1) ∈ o.2)
    (h : ∀ v, v ∈ D ↔ ∃ o ∈ operands, v ∈ (part o.1).keySet)

section

variable {src : Source} {id : OperatorId} {op : Operator (Except Error (List Solution))}
  {operands : Operands} {rows : List Row} {s : Solution}

/-- An operator that keeps some of the rows that it reads. -/
theorem Made.of_kept (hop : ∀ k (E : VarSet), op.Turns k E E) (hs : .solution s ∈ operands.rows) :
    op.Made operands s.keySet := by
  obtain ⟨o, ho, hs⟩ := List.mem_flatMap.1 hs
  exact .turns o ho s hs (hop _ _)

/-- A solution that is emitted is among those that have been computed. -/
theorem exists_of_map_eq_ok {α : Type} {r : Except Error α} {f : α → List Solution}
    (h : r.map (fun a => (f a).map Row.solution) = .ok rows) (hs : .solution s ∈ rows) :
    ∃ a, r = .ok a ∧ s ∈ f a := by
  cases r with
  | error e => cases h
  | ok a =>
      obtain ⟨s', hs', he⟩ := List.mem_map.1 (Except.ok.inj h ▸ hs)
      obtain rfl := Row.solution.inj he
      exact ⟨a, rfl, hs'⟩

/-- An operator that applies a function to the list of all solutions. -/
theorem Made.of_solutions {f : List Solution → List Solution}
    (h : (expectSolutions id operands.rows).map (fun l => (f l).map Row.solution) = .ok rows)
    (hs : .solution s ∈ rows)
    (hf : ∀ l, s ∈ f l → op.Starts s.keySet ∨ ∃ r ∈ l, ∀ k, op.Turns k r.keySet s.keySet) :
    op.Made operands s.keySet := by
  obtain ⟨l, hl, hs⟩ := exists_of_map_eq_ok h hs
  rcases hf l hs with hstarts | ⟨r, hr, hturns⟩
  · exact .starts hstarts
  · rw [eq_solutionsIn_of_expectSolutions hl, mem_solutionsIn] at hr
    obtain ⟨o, ho, hr⟩ := List.mem_flatMap.1 hr
    exact .turns o ho r hr (hturns _)

/-- An operator that keeps some of the solutions that it reads. -/
theorem Made.of_sublist {f : List Solution → List Solution} (hop : ∀ k (E : VarSet), op.Turns k E E)
    (h : (expectSolutions id operands.rows).map (fun l => (f l).map Row.solution) = .ok rows)
    (hs : .solution s ∈ rows) (hf : ∀ l, f l ⊆ l) : op.Made operands s.keySet :=
  .of_solutions h hs fun l hl => .inr ⟨s, hf l hl, fun k => hop k _⟩

/-- An operator that changes one solution after the other. -/
theorem Made.of_map {f : Solution → Solution} (hop : ∀ k r, op.Turns k r.keySet (f r).keySet)
    (h : (expectSolutions id operands.rows).map (fun l => (l.map f).map Row.solution) = .ok rows)
    (hs : .solution s ∈ rows) : op.Made operands s.keySet := by
  refine .of_solutions (f := List.map f) h hs fun l hl => .inr ?_
  obtain ⟨r, hr, rfl⟩ := List.mem_map.1 hl
  exact ⟨r, hr, fun k => hop k r⟩

/-- An operator that joins what it reads with solutions of a single domain. -/
theorem Made.of_joined {added : List Solution} {vars : VarSet}
    (hadded : ∀ b ∈ added, b.keySet = vars) (hop : ∀ k (E : VarSet), op.Turns k E (E ∪ vars))
    (h : (expectSolutions id operands.rows).map
      (fun l => (joinSolutions l added).map Row.solution) = .ok rows)
    (hs : .solution s ∈ rows) : op.Made operands s.keySet := by
  refine .of_solutions (f := (joinSolutions · added)) h hs fun l hl => .inr ?_
  obtain ⟨a, ha, b, hb, -, rfl⟩ := mem_joinSolutions.1 hl
  refine ⟨a, ha, fun k => ?_⟩
  rw [Solution.keySet_merge, hadded b hb]
  exact hop k _

/-- An operator that applies a function to the solutions on its first operand and to all others. -/
theorem exists_of_pairwise_eq_ok {f : List Solution → List Solution → List Solution}
    (h : (do
      let left ← expectSolutions id (operands.on 0)
      let right ← expectSolutions id (operands.except 0)
      return (f left right).map Row.solution : Except Error (List Row)) = .ok rows) :
    ∃ left right, expectSolutions id (operands.on 0) = .ok left ∧
      expectSolutions id (operands.except 0) = .ok right ∧ rows = (f left right).map .solution := by
  cases hleft : expectSolutions id (operands.on 0) with
  | error e =>
      rw [hleft] at h
      cases h
  | ok left =>
      cases hright : expectSolutions id (operands.except 0) with
      | error e =>
          rw [hleft, hright] at h
          cases h
      | ok right =>
          rw [hleft, hright] at h
          exact ⟨left, right, rfl, rfl, (Except.ok.inj h).symm⟩

theorem pairwise_eq_ok {f : List Solution → List Solution → List Solution}
    (h : (do
      let left ← expectSolutions id (operands.on 0)
      let right ← expectSolutions id (operands.except 0)
      return (f left right).map Row.solution : Except Error (List Row)) = .ok rows) :
    rows = (f (solutionsIn (operands.on 0)) (solutionsIn (operands.except 0))).map .solution := by
  obtain ⟨left, right, hleft, hright, rfl⟩ := exists_of_pairwise_eq_ok h
  rw [eq_solutionsIn_of_expectSolutions hleft, eq_solutionsIn_of_expectSolutions hright]

theorem exists_of_mem_on {k : Nat} (h : s ∈ solutionsIn (operands.on k)) :
    ∃ o ∈ operands, o.1 = k ∧ .solution s ∈ o.2 := by
  rw [mem_solutionsIn, Operands.on] at h
  cases hlookup : operands.lookup k with
  | none => simp [hlookup] at h
  | some l =>
      rw [hlookup] at h
      exact ⟨(k, l), lookup_mem hlookup, rfl, h⟩

theorem exists_of_mem_except {k : Nat} (h : s ∈ solutionsIn (operands.except k)) :
    ∃ o ∈ operands, o.1 ≠ k ∧ .solution s ∈ o.2 := by
  rw [mem_solutionsIn, Operands.except] at h
  obtain ⟨o, ho, h⟩ := List.mem_flatMap.1 h
  obtain ⟨ho, hne⟩ := List.mem_filter.1 ho
  exact ⟨o, ho, bne_iff_ne.1 hne, h⟩

theorem made_of_filter {f : Filter (Except Error (List Solution))}
    (h : (Operator.filter f).emit src id operands = .ok rows) (hs : .solution s ∈ rows) :
    (Operator.filter f).Made operands s.keySet := by
  rw [emit] at h
  cases hl : expectSolutions id operands.rows with
  | error e =>
      rw [hl] at h
      cases h
  | ok l =>
      cases hfound : nestedSolutions f.nested 0 f.condition.existencePatterns with
      | error e =>
          rw [hl, hfound] at h
          cases h
      | ok found =>
          have hkept : (expectSolutions id operands.rows).map (fun l =>
              (l.filter (f.condition.holds found)).map Row.solution) = .ok rows := by
            rw [← h, hl, hfound]
            rfl
          exact .of_sublist (f := List.filter (f.condition.holds found)) (fun _ _ => rfl) hkept hs
            fun l => List.filter_subset_self l

theorem made_of_group {keys : List Variable} {aggregates : List (Variable × Aggregate)}
    (h : (Operator.group keys aggregates).emit src id operands = .ok rows)
    (hs : .solution s ∈ rows) :
    (Operator.group keys aggregates : Operator (Except Error (List Solution))).Made operands
      s.keySet := by
  refine .of_solutions (f := groupSolutions keys aggregates) h hs fun l hl => ?_
  rcases keySet_of_mem_groupSolutions hl with ⟨-, hkeys, hdomain⟩ | ⟨r, hr, hkeys, hall⟩
  · exact .inl ⟨hkeys, hdomain⟩
  · exact .inr ⟨r, hr, fun _ => ⟨hkeys, hall⟩⟩

/-- A solution of a left join is one of the first operand, or this and one of another operand. -/
theorem made_of_optional (h : Operator.optional.emit src id operands = .ok rows)
    (hs : .solution s ∈ rows) : Operator.Made (.optional : Operator (Except Error (List Solution)))
      operands s.keySet := by
  rw [pairwise_eq_ok h, List.mem_map] at hs
  obtain ⟨s', hs', he⟩ := hs
  obtain rfl := Row.solution.inj he
  obtain ⟨l, hl, hs'⟩ := List.mem_flatMap.1 hs'
  obtain ⟨o, ho, hzero, hl⟩ := exists_of_mem_on hl
  dsimp only at hs'
  split at hs'
  · rw [List.mem_singleton] at hs'
    subst hs'
    exact .turns o ho s' hl ⟨hzero, rfl⟩
  · obtain ⟨r, hr, rfl⟩ := List.mem_map.1 hs'
    obtain ⟨o', ho', hne, hr⟩ := exists_of_mem_except (List.mem_filter.1 hr).1
    exact .extends rfl o o' ho ho' hzero hne l r hl hr (Solution.keySet_merge l r)

theorem made_of_minus (h : Operator.minus.emit src id operands = .ok rows)
    (hs : .solution s ∈ rows) : Operator.Made (.minus : Operator (Except Error (List Solution)))
      operands s.keySet := by
  rw [pairwise_eq_ok h, List.mem_map] at hs
  obtain ⟨s', hs', he⟩ := hs
  obtain rfl := Row.solution.inj he
  obtain ⟨o, ho, hzero, hl⟩ := exists_of_mem_on (List.mem_filter.1 hs').1
  exact .turns o ho s' hl ⟨hzero, rfl⟩

/-- A solution of a join is made of one of each operand. -/
theorem made_of_join (hnodup : (operands.map Prod.fst).Nodup)
    (h : Operator.join.emit src id operands = .ok rows) (hs : .solution s ∈ rows) :
    Operator.Made (.join : Operator (Except Error (List Solution))) operands s.keySet := by
  have hjoined : (operands.mapM fun o => expectSolutions id o.2).map
      (fun lists => (joinAll lists).map Row.solution) = .ok rows := h
  obtain ⟨lists, hlists, hs⟩ := exists_of_map_eq_ok hjoined hs
  obtain rfl := eq_map_of_mapM_expectSolutions hlists
  have hne : (operands.map fun o => solutionsIn o.2) ≠ [] := fun hnil => by
    rw [hnil] at hs
    cases hs
  rw [joinAll_eq_joinMany hne] at hs
  obtain ⟨part, hpart, hdomain⟩ := exists_of_mem_joinMany hnodup hs
  exact .joins rfl part (fun o ho => mem_solutionsIn.1 (hpart o ho)) hdomain

theorem made_of_matchTriple {p : TriplePattern}
    (h : (Operator.matchTriple p).emit src id operands = .ok rows) (hs : .solution s ∈ rows) :
    (Operator.matchTriple p : Operator (Except Error (List Solution))).Made operands s.keySet := by
  obtain ⟨quads, -, hs⟩ := exists_of_map_eq_ok (f := List.filterMap fun q => p.match? q.triple ∅)
    (r := expectRows id .derivedTriples Row.quad? operands.rows) h hs
  obtain ⟨q, -, hmatch⟩ := List.mem_filterMap.1 hs
  refine .starts (OrdSet.eq_of_mem_iff fun v => ?_)
  rw [TriplePattern.mem_keySet_match? hmatch, Solution.mem_keySet]
  simp

theorem made_of_matchAtom {a : Atom}
    (h : (Operator.matchAtom a).emit src id operands = .ok rows) (hs : .solution s ∈ rows) :
    (Operator.matchAtom a : Operator (Except Error (List Solution))).Made operands s.keySet := by
  obtain ⟨facts, -, hs⟩ := exists_of_map_eq_ok (f := List.filterMap a.match?)
    (r := expectRows id .derivedFacts Row.fact? operands.rows) h hs
  obtain ⟨q, -, hmatch⟩ := List.mem_filterMap.1 hs
  exact .starts (Atom.keySet_match? hmatch)

theorem not_mem_of_map_eq_ok {α : Type} {r : Except Error α} {f : α → List Row}
    (hf : ∀ a, .solution s ∉ f a) (h : r.map f = .ok rows) : .solution s ∉ rows := by
  cases r with
  | error e => cases h
  | ok a => exact Except.ok.inj h ▸ hf a

/-- Every solution that an operator emits has a domain that the operator makes of those that it
reads. -/
theorem made_of_emit (hnodup : (operands.map Prod.fst).Nodup)
    (h : op.emit src id operands = .ok rows) (hs : .solution s ∈ rows) :
    op.Made operands s.keySet := by
  cases op with
  | root =>
      obtain rfl := Except.ok.inj h
      rw [List.mem_singleton, Row.solution.injEq] at hs
      exact .starts (hs ▸ rfl)
  | result _ | union | window _ =>
      obtain rfl := Except.ok.inj h
      exact .of_kept (fun _ _ => rfl) hs
  | limit n =>
      obtain rfl := Except.ok.inj h
      exact .of_kept (fun _ _ => rfl) (List.mem_of_mem_take hs)
  | offset n =>
      obtain rfl := Except.ok.inj h
      exact .of_kept (fun _ _ => rfl) (List.mem_of_mem_drop hs)
  | distinct | indexDistinct =>
      obtain rfl := Except.ok.inj h
      exact .of_kept (fun _ _ => rfl) (mem_distinctOf.1 hs)
  | scan i => exact .of_joined (fun _ hb => Source.keySet_of_mem_scan hb) (fun _ _ => rfl) h hs
  | probe graph =>
      exact .of_joined (fun _ hb => Source.keySet_of_mem_probe hb) (fun _ _ => rfl) h hs
  | ruleFilter equalities =>
      exact .of_sublist (f := List.filter (satisfiesAll equalities)) (fun _ _ => rfl) h hs
        fun l => List.filter_subset_self l
  | sort keys =>
      exact .of_sublist (f := stableSort (compareBy keys)) (fun _ _ => rfl) h hs
        fun l => (stableSort_perm _ l).subset
  | projection vars => exact .of_map (fun _ r => Solution.keySet_restrict r vars) h hs
  | bind target e => exact .of_map (fun _ r => keySet_bindValue target e r) h hs
  | replaceVar ren => exact .of_map (fun _ r => ren.keySet_solution r) h hs
  | group keys aggregates => exact made_of_group h hs
  | filter f => exact made_of_filter h hs
  | optional => exact made_of_optional h hs
  | minus => exact made_of_minus h hs
  | join => exact made_of_join hnodup h hs
  | matchTriple p => exact made_of_matchTriple h hs
  | matchAtom a => exact made_of_matchAtom h hs
  | construct _ | generate _ | constructAtom _ | describe _ | insert | delete =>
      refine absurd hs (not_mem_of_map_eq_ok (fun l => ?_) h)
      simp
  | command c =>
      obtain rfl := Except.ok.inj h
      split at hs
      · cases hs
      · simp at hs
  | service endpoint pattern silent => cases h

end

end Operator

end QuadAlgebra
