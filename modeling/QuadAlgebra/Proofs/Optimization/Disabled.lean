import QuadAlgebra.Proofs.Planning.Finish
import QuadAlgebra.Proofs.Typing.Documents

/-!
# Optimization without rules

Where no rule is allowed, optimizing a plan only computes its variable sets anew, and evaluation
does not read them. So a plan is evaluated as it was planned (`Plan.Typed.evaluate_optimize_nil`).
How it is planned does not depend on what is allowed later (`Query.prepare_unoptimized`).
-/

namespace QuadAlgebra

/-! ## Evaluation and variable sets -/

namespace Graph.SameEdges

variable {g g' : Graph Outcome} {src : Source}

theorem ids {γ : Type} {g g' : Graph γ} (h : g.SameEdges g') : g'.ids = g.ids := by
  rw [Graph.ids, Graph.ids, h.length]
  exact List.filter_congr fun id _ => h.contains id

theorem consumers {γ : Type} {g g' : Graph γ} (h : g.SameEdges g') (id : OperatorId) :
    g'.consumers id = g.consumers id := by
  rw [Graph.consumers, Graph.consumers, h.succeeding]
  exact List.filter_congr fun id _ => h.contains id

theorem loopMembers {γ : Type} {g g' : Graph γ} (h : g.SameEdges g') :
    g'.loopMembers = g.loopMembers := by
  rw [Graph.loopMembers, Graph.loopMembers, h.ids]
  refine List.filter_congr fun id _ => ?_
  have hconsumers : g'.consumers = g.consumers := funext h.consumers
  rw [Graph.walkFrom, Graph.walkFrom, hconsumers, h.length]

theorem emitAt (h : g.SameEdges g') (looped : List OperatorId) (previous current : Assignment)
    (id : OperatorId) :
    g'.emitAt src looped previous current id = g.emitAt src looped previous current id := by
  simp only [Graph.emitAt, Graph.operator, Graph.operandRows, Graph.operandGroups, h.operator?,
    h.inputs]

theorem rounds (h : g.SameEdges g') (looped order : List OperatorId) (limit left before : Nat)
    (previous : Assignment) : g'.rounds src looped order limit left before previous =
      g.rounds src looped order limit left before previous := by
  have hround (previous : Assignment) :
      g'.round src looped order previous = g.round src looped order previous := by
    simp only [Graph.round, h.emitAt]
  induction left generalizing before previous with
  | zero => rfl
  | succ left ih => simp only [Graph.rounds, hround, ih]

/-- Evaluation reads operators and edges only. -/
theorem evaluate (h : g.SameEdges g') (limit : Nat) :
    g'.evaluate src limit = g.evaluate src limit := by
  have hresults : g'.results = g.results := by
    rw [Graph.results, Graph.results, Graph.find, Graph.find, h.ids]
    exact List.filter_congr fun id _ => by rw [Graph.kind?, Graph.kind?, h.operator?]
  simp only [Graph.evaluate, h.topologicalOrder, h.loopMembers, h.rounds, Graph.collect, hresults,
    h.operator?]

theorem mapNested {γ δ : Type} {g g' : Graph γ} (h : g.SameEdges g') (f : γ → δ) :
    (g.mapNested f).SameEdges (g'.mapNested f) where
  length := by rw [Graph.length_mapNested, Graph.length_mapNested, h.length]
  operator? id := by rw [Graph.operator?_mapNested, Graph.operator?_mapNested, h.operator?]
  contains id := by rw [Graph.contains_mapNested, Graph.contains_mapNested, h.contains]
  preceding id := by rw [Graph.preceding_mapNested, Graph.preceding_mapNested, h.preceding]
  succeeding id := by rw [Graph.succeeding_mapNested, Graph.succeeding_mapNested, h.succeeding]

end Graph.SameEdges

/-! ## Nested plans -/

namespace Operator

variable {γ δ ε : Type}

theorem withNested_withNested (op : Operator γ) (nested : List (Nat × δ))
    (nested' : List (Nat × ε)) :
    (op.withNested nested).withNested nested' = op.withNested nested' := by
  cases op <;> rfl

theorem nested_withNested_map (op : Operator γ) (f : γ → δ) :
    (op.withNested (op.nested.map fun e => (e.1, f e.2))).nested =
      op.nested.map fun e => (e.1, f e.2) := by
  cases op <;> rfl

end Operator

namespace Graph

variable {γ δ ε : Type} {g : Graph γ}

/-- Two maps of nested plans compose, as far as plans are nested in the graph. -/
theorem mapNested_mapNested {f : γ → δ} {f' : δ → ε} {k : γ → ε}
    (h : ∀ id op, g.operator? id = some op → ∀ e ∈ op.nested, f' (f e.2) = k e.2) :
    (g.mapNested f).mapNested f' = g.mapNested k := by
  simp only [mapNested, List.map_map]
  refine congrArg Graph.mk (List.map_congr_left fun slot hslot => ?_)
  cases slot with
  | none => rfl
  | some n =>
      obtain ⟨id, hid⟩ := List.mem_iff_getElem?.1 hslot
      have hop : g.operator? id = some n.operator := by
        rw [operator?, node?, hid]
        rfl
      have hnested : (n.operator.nested.map fun e => (e.1, f e.2)).map (fun e => (e.1, f' e.2)) =
          n.operator.nested.map fun e => (e.1, k e.2) := by
        rw [List.map_map]
        exact List.map_congr_left fun e he => Prod.ext rfl (h id _ hop e he)
      simp only [Function.comp_apply, Option.map_some, Operator.withNested_withNested,
        Operator.nested_withNested_map, hnested]

end Graph

/-! ## Plans -/

theorem Graph.applyRules_nil_runOn {γ : Type} (limit : Nat) (g : Graph γ) :
    (Graph.applyRules [] limit).runOn g = (.ok .zero, g) := rfl

/-- Without rules a graph keeps its operators and edges, and the plans nested in it are those that
have been optimized. -/
theorem Graph.optimize_nil_eq_ok {g : Graph (Except Error Optimized)} {limit : Nat} {o : Optimized}
    (h : g.optimize [] limit = .ok o) :
    (∀ id op, g.operator? id = some op → ∀ e ∈ op.nested, ∃ nested, e.2 = .ok nested) ∧
      (g.mapNested fun r => (r.toOption.map Optimized.plan).getD default).SameEdges
        o.plan.graph := by
  obtain ⟨hnested, counts, g₁, happlied, hfinish⟩ := Graph.optimize_eq_ok h
  rw [Graph.applyRules_nil_runOn] at happlied
  obtain ⟨-, rfl⟩ := Prod.mk.inj happlied
  exact ⟨hnested, (Graph.updateVariables_eq_ok hfinish).2⟩

/-- A plan that is optimized without rules is evaluated as before. -/
theorem Plan.Typed.evaluate_optimize_nil {p : Plan} (h : p.Typed) {limit : Nat} {o : Optimized}
    (ho : p.optimize [] limit = .ok o) (src : Source) (rounds : Nat) :
    o.plan.evaluate src rounds = p.evaluate src rounds := by
  induction h generalizing o with
  | intro p typed ordered nested ih =>
      rw [Plan.optimize, Plan.fold_eq] at ho
      obtain ⟨hnested, hsame⟩ := Graph.optimize_nil_eq_ok ho
      rw [Plan.evaluate_eq, Plan.evaluate_eq, Plan.opened, Plan.opened,
        (hsame.mapNested _).evaluate]
      refine congrArg (Graph.evaluate src rounds) ?_
      rw [Graph.mapNested_mapNested (k := fun r : Except Error Optimized =>
        ((r.toOption.map Optimized.plan).getD default).evaluate src rounds) fun _ _ _ _ _ => rfl]
      refine Graph.mapNested_mapNested fun id op hop e he => ?_
      obtain ⟨o', ho'⟩ := hnested id (op.withNested (op.nested.map fun e =>
          (e.1, e.2.fold (Graph.optimize [] limit)))) (by rw [Graph.operator?_mapNested, hop]; rfl)
        (e.1, e.2.fold (Graph.optimize [] limit))
        (by rw [Operator.nested_withNested_map]; exact List.mem_map_of_mem he)
      dsimp only at ho'
      rw [ho']
      exact ih id op hop e he ho'

/-! ## Planners without rules -/

/-- A planner whose plans are not optimized. -/
def Planner.unoptimized (p : Planner) : Planner := { p with config := p.config.withoutOptimizer }

theorem rules_withoutOptimizer {γ : Type} (c : Config) (provesEmpty : IndexScan → Bool) :
    (c.withoutOptimizer.optimizer.rules provesEmpty : List (PlanRule γ)) = [] :=
  List.filter_eq_nil_iff.2 fun _ _ => Bool.false_ne_true

/-- Optimizing a plan without rules gives a plan that is evaluated as it was planned. -/
theorem Planner.evaluate_unoptimized {p : Planner} {planned prepared : Prepared}
    (htyped : planned.plan.Typed)
    (hoptimize : p.unoptimized.optimizePrepared planned = .ok prepared) :
    prepared.dataset = planned.dataset ∧ ∀ src rounds,
      prepared.plan.evaluate src rounds = planned.plan.evaluate src rounds := by
  obtain ⟨o, ho, rfl⟩ := optimizePrepared_eq_ok hoptimize
  rw [optimize, show p.unoptimized.config = p.config.withoutOptimizer from rfl,
    rules_withoutOptimizer] at ho
  exact ⟨rfl, htyped.evaluate_optimize_nil ho⟩

/-! ## Planning without rules -/

namespace Planner

variable (p : Planner)

theorem closure_unoptimized (graph : Option Item) (path : DrawPath) (rounds : Nat) :
    (⟨p.unoptimized, graph⟩ : PathPlanner).closure path rounds =
      (⟨p, graph⟩ : PathPlanner).closure path rounds := by
  induction rounds with
  | zero => rfl
  | succ rounds ih =>
      funext s o
      simp only [PathPlanner.closure, ih]
      rfl

/-- Paths are planned in the same way, whether plans are optimized afterwards or not. -/
theorem drawPath_unoptimized (graph : Option Item) :
    (path : Path) → path.draw ⟨p.unoptimized, graph⟩ = path.draw ⟨p, graph⟩
  | .predicate _ => rfl
  | .inverse q => by
      rw [Path.draw, Path.draw, drawPath_unoptimized graph q]
  | .sequence q r => by
      rw [Path.draw, Path.draw, drawPath_unoptimized graph q, drawPath_unoptimized graph r]
      rfl
  | .alternative q r => by
      rw [Path.draw, Path.draw, drawPath_unoptimized graph q, drawPath_unoptimized graph r]
      rfl
  | .negatedSet _ => rfl
  | .repetition q min (some max) => by
      rw [Path.draw, Path.draw, drawPath_unoptimized graph q]
      rfl
  | .repetition q min none => by
      rw [Path.draw, Path.draw, drawPath_unoptimized graph q]
      funext s o
      unfold PathPlanner.unbounded PathPlanner.oneOrMore
      rw [closure_unoptimized]
      rfl
  | .oneOrMore q => by
      rw [Path.draw, Path.draw, drawPath_unoptimized graph q]
      exact closure_unoptimized p graph _ 3
  | .zeroOrMore q => by
      rw [Path.draw, Path.draw, drawPath_unoptimized graph q, PathPlanner.oneOrMore,
        closure_unoptimized]
      rfl
  | .zeroOrOne q => by
      rw [Path.draw, Path.draw, drawPath_unoptimized graph q]
      rfl

end Planner

mutual

/-- Groups are planned in the same way, whether plans are optimized afterwards or not. -/
theorem Group.draw_unoptimized : (g : Group) → (p : Planner) → (graph : Option Item) →
    g.draw p.unoptimized graph = g.draw p graph
  | ⟨elements⟩, p, graph => by
      rw [Group.draw, Group.draw, drawFilters_unoptimized elements p graph,
        drawElements_unoptimized elements p graph]
      rfl

theorem drawFilters_unoptimized : (elements : List Element) → (p : Planner) →
    (graph : Option Item) → drawFilters p.unoptimized graph elements = drawFilters p graph elements
  | [], _, _ => rfl
  | e :: rest, p, graph => by
      have hrest := drawFilters_unoptimized rest p graph
      cases e with
      | filter e =>
          funext c
          rw [drawFilters, drawFilters, e.drawNested_unoptimized p graph, hrest]
          rfl
      | _ => exact hrest

theorem drawElements_unoptimized : (elements : List Element) → (p : Planner) →
    (graph : Option Item) → drawElements p.unoptimized graph elements =
      drawElements p graph elements
  | [], _, _ => rfl
  | e :: rest, p, graph => by
      funext s
      rw [drawElements, drawElements, e.draw_unoptimized p graph,
        drawElements_unoptimized rest p graph]

theorem Element.draw_unoptimized : (e : Element) → (p : Planner) → (graph : Option Item) →
    e.draw p.unoptimized graph = e.draw p graph
  | .triple _, _, _ => rfl
  | .path path, p, graph => by
      funext s
      rw [Element.draw, Element.draw, Segment.addPath, p.drawPath_unoptimized graph path.path]
      rfl
  | .group g, p, graph => by
      funext s
      rw [Element.draw, Element.draw, g.draw_unoptimized p graph]
  | .union branches, p, graph => by
      funext s
      rw [Element.draw, Element.draw, drawBranches_unoptimized branches p graph]
  | .optional g, p, graph => by
      funext s
      rw [Element.draw, Element.draw, g.draw_unoptimized p graph]
      rfl
  | .minus g, p, graph => by
      funext s
      rw [Element.draw, Element.draw, g.draw_unoptimized p graph]
      rfl
  | .bind _ _, _, _ => rfl
  | .graph name g, p, graph => by
      funext s
      rw [Element.draw, Element.draw, g.draw_unoptimized p (some name)]
      rfl
  | .filter _, _, _ => rfl
  | .subSelect q, p, graph => by
      funext s
      rw [Element.draw, Element.draw, q.drawSolutions_unoptimized p graph]
  | .service _ _ _, _, _ => rfl
  | .window w g, p, graph => by
      funext s
      rw [Element.draw, Element.draw, g.draw_unoptimized p graph]
      rfl
  | .atom _, _, _ => rfl

theorem drawBranches_unoptimized : (branches : List Group) → (p : Planner) →
    (graph : Option Item) → drawBranches p.unoptimized graph branches =
      drawBranches p graph branches
  | [], _, _ => rfl
  | g :: rest, p, graph => by
      rw [drawBranches, drawBranches, g.draw_unoptimized p graph,
        drawBranches_unoptimized rest p graph]

theorem Query.drawSolutions_unoptimized : (q : Query) → (p : Planner) → (graph : Option Item) →
    q.drawSolutions p.unoptimized graph = q.drawSolutions p graph
  | ⟨_, _, some g, ⟨_, having, _, _, _⟩⟩, p, graph => by
      rw [Query.drawSolutions, Query.drawSolutions, g.draw_unoptimized p graph,
        drawNestedOf_unoptimized having p graph]
      rfl
  | ⟨_, _, none, ⟨_, having, _, _, _⟩⟩, p, graph => by
      rw [Query.drawSolutions, Query.drawSolutions, drawNestedOf_unoptimized having p graph]
      rfl

theorem Expression.drawNested_unoptimized : (e : Expression) → (p : Planner) →
    (graph : Option Item) → e.drawNested p.unoptimized graph = e.drawNested p graph
  | .existence _ g, p, graph => by
      rw [Expression.drawNested, Expression.drawNested,
        ← g.draw_unoptimized { p with inRules := false } graph]
      rfl
  | .binary l _ r, p, graph => by
      rw [Expression.drawNested, Expression.drawNested, l.drawNested_unoptimized p graph,
        r.drawNested_unoptimized p graph]
  | .unary _ e, p, graph => by
      rw [Expression.drawNested, Expression.drawNested, e.drawNested_unoptimized p graph]
  | .call _ args, p, graph => by
      rw [Expression.drawNested, Expression.drawNested, drawNestedOf_unoptimized args p graph]
  | .constant _, _, _ | .variable _, _, _ | .bound _, _, _ | .aggregate _, _, _ => rfl

theorem drawNestedOf_unoptimized : (es : List Expression) → (p : Planner) →
    (graph : Option Item) → drawNestedOf p.unoptimized graph es = drawNestedOf p graph es
  | [], _, _ => rfl
  | e :: rest, p, graph => by
      rw [drawNestedOf, drawNestedOf, e.drawNested_unoptimized p graph,
        drawNestedOf_unoptimized rest p graph]

end

/-- What is drawn for a query does not depend on the optimizer. -/
theorem Query.draw_unoptimized (q : Query) (p : Planner) : q.draw p.unoptimized = q.draw p := by
  have hpattern : drawPattern p.unoptimized none q.pattern = drawPattern p none q.pattern := by
    funext c
    cases hg : q.pattern with
    | none => rfl
    | some g => exact congrFun (g.draw_unoptimized p none) c
  rw [Query.draw, Query.draw, q.drawSolutions_unoptimized p none, hpattern]

theorem Query.prepare_unoptimized (q : Query) (p : Planner) :
    q.prepare p.unoptimized = q.prepare p := by
  have hwithin : p.unoptimized.within q.dataset =
      Planner.unoptimized <$> p.within q.dataset := by
    unfold Planner.within
    cases q.dataset with
    | none => rw [map_pure]
    | some c =>
        dsimp only
        split
        · rw [map_bind]
          rfl
        · rfl
  rw [Query.prepare, Query.prepare, hwithin, bind_map_left]
  simp only [Query.draw_unoptimized]
  rfl

end QuadAlgebra
