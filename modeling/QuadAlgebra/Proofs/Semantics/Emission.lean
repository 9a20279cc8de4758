import QuadAlgebra.Proofs.Plan.Wiring
import QuadAlgebra.Proofs.Semantics.Flow
import QuadAlgebra.Proofs.Solution.Join

/-!
# What operators make of solutions

For operands that hold solutions, what an operator on solutions emits is a list of solutions again,
given by a function on lists; there is one lemma for each kind of operator. In a plan, these
functions say what an operator has in each stage of a flow, from what its producers have
(`Scene.step`).
-/

namespace QuadAlgebra

/-- Operands that hold solutions. -/
def solutionOperands (l : List (Nat × List Solution)) : Operands :=
  l.map fun o => (o.1, o.2.map .solution)

namespace solutionOperands

variable (l : List (Nat × List Solution))

/-- All rows together, operand by operand. -/
@[simp] theorem rows_eq : (solutionOperands l).rows = (l.flatMap Prod.snd).map .solution := by
  simp [solutionOperands, Operands.rows, List.flatMap_map, List.map_flatMap]

/-- The rows on one operand. -/
@[simp] theorem on_eq (k : Nat) :
    (solutionOperands l).on k = ((l.lookup k).getD []).map .solution := by
  unfold solutionOperands Operands.on
  induction l with
  | nil => rfl
  | cons o rest ih =>
      rw [List.map_cons, List.lookup_cons, List.lookup_cons]
      cases k == o.1 with
      | true => rfl
      | false => exact ih

/-- The rows on all other operands. -/
@[simp] theorem except_eq (k : Nat) : (solutionOperands l).except k =
    ((l.filter (·.1 != k)).flatMap Prod.snd).map .solution := by
  unfold solutionOperands Operands.except
  rw [List.filter_map, List.flatMap_map, List.map_flatMap]
  rfl

theorem mapM_expect (id : OperatorId) :
    (solutionOperands l).mapM (fun o => expectSolutions id o.2) = .ok (l.map Prod.snd) := by
  unfold solutionOperands
  induction l with
  | nil => rfl
  | cons o rest ih =>
      rw [List.map_cons, List.mapM_cons, ih, expectSolutions_map]
      rfl

end solutionOperands

/-! ## Solutions of nested plans -/

/-- The solutions of existence patterns are found by their places. -/
theorem nestedSolutions_eq {nested : List (Nat × Except Error (List Solution))}
    {patterns : List Group} {found : List (List Solution)} (k : Nat)
    (hlength : found.length = patterns.length)
    (hlookup : ∀ i (hi : i < found.length), nested.lookup (k + i) = some (.ok found[i])) :
    nestedSolutions nested k patterns = .ok found := by
  induction patterns generalizing k found with
  | nil =>
      rw [List.length_eq_zero_iff.1 hlength]
      rfl
  | cons g rest ih =>
      cases found with
      | nil => cases hlength
      | cons rows found =>
          have hfirst := hlookup 0 (by simp)
          rw [Nat.add_zero] at hfirst
          have hrest := ih (k + 1) (Nat.succ.inj hlength) fun i hi => by
            have hnext := hlookup (i + 1) (by simpa using hi)
            rw [Nat.add_assoc, Nat.add_comm 1 i]
            simpa using hnext
          rw [nestedSolutions, hrest]
          simp only [hfirst]
          rfl

/-- Nested solutions have been found just if each plan has been evaluated, in the order of the
conditions. -/
theorem nestedSolutions_eq_ok {nested : List (Nat × Except Error (List Solution))}
    {patterns : List Group} {found : List (List Solution)} {k : Nat}
    (h : nestedSolutions nested k patterns = .ok found) : found.length = patterns.length ∧
      ∀ (i : Nat) (rows : List Solution), found[i]? = some rows →
        nested.lookup (k + i) = some (.ok rows) := by
  induction patterns generalizing k found with
  | nil =>
      obtain rfl := Except.ok.inj h
      exact ⟨rfl, fun i rows hi => by simp at hi⟩
  | cons g rest ih =>
      rw [nestedSolutions] at h
      cases hfirst : nested.lookup k with
      | none => simp [hfirst, bind, Except.bind] at h
      | some outcome =>
          cases outcome with
          | error error => simp [hfirst, bind, Except.bind] at h
          | ok solutions =>
              cases hrest : nestedSolutions nested (k + 1) rest with
              | error error => simp [hfirst, hrest, bind, Except.bind] at h
              | ok others =>
                  simp only [hfirst, hrest, bind, Except.bind, pure, Except.pure,
                    Except.ok.injEq] at h
                  subst h
                  obtain ⟨hlength, hlookup⟩ := ih hrest
                  refine ⟨by simp [hlength], fun i rows hi => ?_⟩
                  cases i with
                  | zero =>
                      obtain rfl := Option.some.inj hi
                      exact hfirst
                  | succ i =>
                      have hnext := hlookup i rows (by simpa using hi)
                      rwa [show k + (i + 1) = k + 1 + i by omega]

/-! ## Emission -/

namespace Operator

variable {src : Source} {id : OperatorId} {l : List (Nat × List Solution)}

/-- The root emits one solution that binds nothing. -/
theorem emit_root : emit src id .root (solutionOperands l) = .ok ([∅].map .solution) := rfl

/-- A result hands on what it reads. -/
theorem emit_result (form : ResultForm) :
    emit src id (.result form) (solutionOperands l) = .ok ((l.flatMap Prod.snd).map .solution) :=
  congrArg Except.ok (solutionOperands.rows_eq l)

/-- A union emits all rows of its operands. -/
theorem emit_union :
    emit src id .union (solutionOperands l) = .ok ((l.flatMap Prod.snd).map .solution) :=
  congrArg Except.ok (solutionOperands.rows_eq l)

/-- An operator that applies a function to all solutions on its operands. -/
theorem map_expectSolutions_rows (f : List Solution → List Solution) :
    ((expectSolutions id (solutionOperands l).rows).map fun rows => (f rows).map Row.solution) =
      .ok ((f (l.flatMap Prod.snd)).map .solution) := by
  rw [solutionOperands.rows_eq, expectSolutions_map]
  rfl

/-- A scan joins what it reads with what it finds. -/
theorem emit_scan (s : IndexScan) : emit src id (.scan s) (solutionOperands l) =
    .ok ((joinSolutions (l.flatMap Prod.snd) (src.scan s)).map .solution) :=
  map_expectSolutions_rows fun rows => joinSolutions rows (src.scan s)

/-- A probe joins what it reads with the graphs that it ranges over. -/
theorem emit_probe (graph : Option Item) : emit src id (.probe graph) (solutionOperands l) =
    .ok ((joinSolutions (l.flatMap Prod.snd) (src.probe graph)).map .solution) :=
  map_expectSolutions_rows fun rows => joinSolutions rows (src.probe graph)

/-- A join joins the rows of its operands from the first to the last. -/
theorem emit_join : emit src id .join (solutionOperands l) =
    .ok ((joinAll (l.map Prod.snd)).map .solution) := by
  show (do
    let lists ← (solutionOperands l).mapM fun (o : Nat × List Row) => expectSolutions id o.2
    return (joinAll lists).map Row.solution) = _
  rw [solutionOperands.mapM_expect]
  rfl

/-- An operator that combines the solutions on its first operand with those on the others. -/
theorem pair_expectSolutions (f : List Solution → List Solution → List Solution) :
    (do
      let left ← expectSolutions id ((solutionOperands l).on 0)
      let right ← expectSolutions id ((solutionOperands l).except 0)
      return (f left right).map Row.solution) =
      .ok ((f ((l.lookup 0).getD []) ((l.filter (·.1 != 0)).flatMap Prod.snd)).map .solution) := by
  rw [solutionOperands.on_eq, solutionOperands.except_eq, expectSolutions_map, expectSolutions_map]
  rfl

/-- A left join extends the rows of its first operand by those of the others. -/
theorem emit_optional : emit src id .optional (solutionOperands l) =
    .ok ((leftJoinSolutions ((l.lookup 0).getD [])
      ((l.filter (·.1 != 0)).flatMap Prod.snd)).map .solution) :=
  pair_expectSolutions leftJoinSolutions

/-- A minus takes away those rows of its first operand that are compatible with one of the
others. -/
theorem emit_minus : emit src id .minus (solutionOperands l) =
    .ok ((subtractSolutions ((l.lookup 0).getD [])
      ((l.filter (·.1 != 0)).flatMap Prod.snd)).map .solution) :=
  pair_expectSolutions subtractSolutions

/-- A filter keeps the solutions that satisfy its condition, given what has been found for the
nested plans. -/
theorem emit_filter {f : Filter (Except Error (List Solution))} {found : List (List Solution)}
    (h : nestedSolutions f.nested 0 f.condition.existencePatterns = .ok found) :
    emit src id (.filter f) (solutionOperands l) =
      .ok (((l.flatMap Prod.snd).filter (f.condition.holds found)).map .solution) := by
  show (do
    let rows ← expectSolutions id (solutionOperands l).rows
    let found ← nestedSolutions f.nested 0 f.condition.existencePatterns
    return (rows.filter (f.condition.holds found)).map Row.solution) = _
  rw [solutionOperands.rows_eq, expectSolutions_map, h]
  rfl

theorem emit_ruleFilter (equalities : List (Item × Item)) :
    emit src id (.ruleFilter equalities) (solutionOperands l) =
      .ok (((l.flatMap Prod.snd).filter (satisfiesAll equalities)).map .solution) :=
  map_expectSolutions_rows fun rows => rows.filter (satisfiesAll equalities)

/-- A projection forgets all other variables. -/
theorem emit_projection (vars : VarSet) : emit src id (.projection vars) (solutionOperands l) =
    .ok (((l.flatMap Prod.snd).map (·.restrict vars)).map .solution) :=
  map_expectSolutions_rows (List.map (·.restrict vars))

/-- A binding gives its variable the value of an expression, if there is one. -/
theorem emit_bind (target : Variable) (e : Expression) :
    emit src id (.bind target e) (solutionOperands l) =
      .ok (((l.flatMap Prod.snd).map (bindValue target e)).map .solution) :=
  map_expectSolutions_rows fun rows => rows.map (bindValue target e)

/-- A renaming renames the variables of each solution. -/
theorem emit_replaceVar (r : Renaming) : emit src id (.replaceVar r) (solutionOperands l) =
    .ok (((l.flatMap Prod.snd).map r.solution).map .solution) :=
  map_expectSolutions_rows fun rows => rows.map r.solution

/-- A distinct keeps the first of equal solutions. -/
theorem emit_distinct : emit src id .distinct (solutionOperands l) =
    .ok ((distinctOf (l.flatMap Prod.snd)).map .solution) := by
  show Except.ok (distinctOf (solutionOperands l).rows) = _
  rw [solutionOperands.rows_eq, distinctOf_map Row.solution_injective]

end Operator

/-! ## Operators of plans -/

/-- An operator of a plan, with what its nested plans evaluate to. -/
def Operator.opened (src : Source) (limit : Nat) (op : Operator Plan) :
    Operator (Except Error (List Solution)) :=
  op.withNested (op.nested.map fun e => (e.1, (e.2.evaluate src limit).map Evaluation.solutions))

/-- The operator does not fail on solutions and emits solutions. -/
def Operator.IsTame (src : Source) (limit : Nat) (op : Operator Plan) : Prop :=
  ∀ (id : OperatorId) (l : List (Nat × List Solution)), ∃ emitted : List Solution,
    (op.opened src limit).emit src id (solutionOperands l) = .ok (emitted.map .solution)

namespace Graph

variable {γ δ : Type}

/-- To change what is nested in operators keeps all edges. -/
theorem node?_mapNested (f : γ → δ) (g : Graph γ) (id : OperatorId) :
    (g.mapNested f).node? id = (g.node? id).map fun n =>
      ⟨n.operator.withNested (n.operator.nested.map fun e => (e.1, f e.2)), n.preceding,
        n.succeeding, n.certain, n.possible⟩ := by
  unfold node? mapNested
  rw [List.getElem?_map]
  cases g.slots[id]? <;> rfl

@[simp] theorem succeeding_mapNested (f : γ → δ) (g : Graph γ) (id : OperatorId) :
    (g.mapNested f).succeeding id = g.succeeding id := by
  unfold succeeding
  rw [node?_mapNested]
  cases g.node? id <;> rfl

@[simp] theorem preceding_mapNested (f : γ → δ) (g : Graph γ) (id : OperatorId) :
    (g.mapNested f).preceding id = g.preceding id := by
  unfold preceding
  rw [node?_mapNested]
  cases g.node? id <;> rfl

@[simp] theorem contains_mapNested (f : γ → δ) (g : Graph γ) (id : OperatorId) :
    (g.mapNested f).contains id = g.contains id := by
  unfold contains
  rw [node?_mapNested]
  cases g.node? id <;> rfl

@[simp] theorem inputs_mapNested (f : γ → δ) (g : Graph γ) (id : OperatorId) :
    (g.mapNested f).inputs id = g.inputs id := by
  simp only [inputs, edgesBetween, preceding_mapNested, succeeding_mapNested]

@[simp] theorem length_mapNested (f : γ → δ) (g : Graph γ) :
    (g.mapNested f).slots.length = g.slots.length := by
  simp [mapNested]

@[simp] theorem ids_mapNested (f : γ → δ) (g : Graph γ) : (g.mapNested f).ids = g.ids := by
  unfold ids
  rw [length_mapNested]
  exact List.filter_congr fun id _ => contains_mapNested f g id

/-- A tidy graph stays tidy if what is nested in its operators is changed. -/
theorem Tidy.mapNested {g : Graph γ} (h : g.Tidy) (f : γ → δ) : (g.mapNested f).Tidy where
  live id := by rw [contains_mapNested, length_mapNested, h.live]
  both s t := by rw [preceding_mapNested, succeeding_mapNested, h.both]
  nodup s := by rw [succeeding_mapNested]; exact h.nodup s
  ascending t := by rw [inputs_mapNested]; exact h.ascending t

theorem Ranked.mapNested {g : Graph γ} (h : g.Ranked) (f : γ → δ) : (g.mapNested f).Ranked := by
  obtain ⟨rank, hrank⟩ := h
  exact ⟨rank, fun t i hi => hrank t i (by rwa [inputs_mapNested] at hi)⟩

/-- Opening the nested plans of a graph keeps its edges. -/
theorem inputs_opened (G : Graph Plan) (src : Source) (limit : Nat) (id : OperatorId) :
    (Plan.opened ⟨G⟩ src limit).inputs id = G.inputs id := inputs_mapNested _ G id

theorem ids_opened (G : Graph Plan) (src : Source) (limit : Nat) :
    (Plan.opened ⟨G⟩ src limit).ids = G.ids := ids_mapNested _ G

theorem Tidy.opened {G : Graph Plan} (h : G.Tidy) (src : Source) (limit : Nat) :
    (Plan.opened ⟨G⟩ src limit).Tidy := h.mapNested _

/-- An operator of an opened graph emits what it does once its nested plans have been evaluated. -/
theorem respond_opened {G : Graph Plan} {src : Source} {limit : Nat} {id : OperatorId}
    {op : Operator Plan} (hop : G.operator? id = some op) (operands : Operands) :
    (Plan.opened ⟨G⟩ src limit).respond src operands id =
      (op.opened src limit).emit src id operands := by
  have hnode : (Plan.opened ⟨G⟩ src limit).operator? id =
      some (op.withNested (op.nested.map fun e => (e.1, e.2.evaluate src limit))) := by
    unfold operator? at hop ⊢
    rw [Plan.opened, node?_mapNested]
    cases hn : G.node? id with
    | none => simp [hn] at hop
    | some n =>
        rw [hn, Option.map_some, Option.some.injEq] at hop
        simp [hop]
  rw [respond, operator, hnode]
  cases op <;> simp [Operator.opened, Operator.withNested, Operator.nested, bind, Except.bind,
    Function.comp_def]

end Graph

/-! ## Scenes -/

/-- A flow through a graph whose root is where it should be. -/
structure Scene (src : Source) (limit : Nat) (G : Graph Plan)
    (F : Nat → OperatorId → List Solution) : Prop where
  tidy : G.Tidy
  root : G.operator? Graph.root = some .root
  flow : (Plan.opened ⟨G⟩ src limit).Flow src F

namespace Scene

variable {src : Source} {limit : Nat} {G : Graph Plan} {F : Nat → OperatorId → List Solution}

/-- What an operator reads over an edge in a round. -/
def read (F : Nat → OperatorId → List Solution) (n : Nat) (i : Input) : List Solution :=
  F (if i.feedback then n else n + 1) i.source

/-- What an operator has after a round is what it emits in it. -/
theorem step (h : Scene src limit G F) {id : OperatorId} {op : Operator Plan}
    (hop : G.operator? id = some op) (n : Nat) {rows : List Solution}
    (hemit : (op.opened src limit).emit src id
      (solutionOperands ((G.inputs id).map fun i => (i.operand, read F n i))) =
        .ok (rows.map .solution)) :
    (∀ s, s ∈ F (n + 1) id ↔ s ∈ rows) ∧
      (¬ (Plan.opened ⟨G⟩ src limit).OnLoop id → F (n + 1) id = rows) := by
  have hid : id ∈ G.ids := Graph.mem_ids_of_operator? hop
  obtain ⟨emitted, hemitted, hmem, hplain⟩ :=
    h.flow.step n id (by rwa [Graph.ids_opened])
  rw [Graph.respond_opened hop, (h.tidy.opened src limit).deliver_eq, Graph.inputs_opened]
    at hemitted
  have hoperands : solutionOperands ((G.inputs id).map fun i => (i.operand, read F n i)) =
      (G.inputs id).map fun i =>
        (i.operand, (F (if i.feedback then n else n + 1) i.source).map Row.solution) := by
    simp [solutionOperands, read, Function.comp_def]
  rw [hoperands, hemitted] at hemit
  obtain rfl : emitted = rows :=
    List.map_injective_iff.2 Row.solution_injective (Except.ok.inj hemit)
  exact ⟨hmem, hplain⟩

end Scene

end QuadAlgebra
