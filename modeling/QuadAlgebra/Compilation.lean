import QuadAlgebra.Planning.Document
import QuadAlgebra.Optimization.Catalogue

/-!
# Compilation of documents

A document is planned first; then each of its plans is optimized, the plans nested in its filters
before the plan itself.
-/

namespace QuadAlgebra

/-! ## Optimization of plans -/

/-- A plan that has been optimized, and what that took. -/
structure Optimized where
  plan : Plan
  counts : RuleCounts

namespace Graph

/-- All nested plans of a graph, by operator and place. -/
def allNested {γ : Type} (g : Graph γ) : List γ :=
  g.ids.flatMap fun id =>
    match g.operator? id with
    | some op => op.nested.map (·.2)
    | none => []

/-- Optimizes a graph whose nested plans have been optimized. -/
def optimize (rules : List (PlanRule Plan)) (limit : Nat)
    (g : Graph (Except Error Optimized)) : Except Error Optimized := do
  let nested ← g.allNested.mapM id
  let start := g.mapNested fun r => (r.toOption.map Optimized.plan).getD default
  let run : Edit (Graph Plan) RuleCounts := do
    let counts ← applyRules rules limit
    updateVariables
    return counts
  let (outcome, graph) := run.runOn start
  return ⟨⟨graph⟩, (nested.map Optimized.counts).foldl (· + ·) .zero + (← outcome)⟩

end Graph

/-- Optimizes a plan, inside out. -/
def Plan.optimize (rules : List (PlanRule Plan)) (limit : Nat) (p : Plan) :
    Except Error Optimized :=
  p.fold (Graph.optimize rules limit)

namespace Planner

/-- Optimizes a plan as the configuration says. -/
def optimize (p : Planner) (plan : Plan) : Except Error Optimized :=
  plan.optimize (p.config.optimizer.rules p.scans.provesEmpty) p.config.optimizer.maxPasses

def optimizePrepared (p : Planner) (plan : Prepared) : Except Error Prepared := do
  return { plan with plan := (← p.optimize plan.plan).plan }

end Planner

/-! ## Compilation -/

/-- Compiles a document to plans. Numbers are handed out from the draft on. -/
def Document.compile (p : Planner) (d : Document) : Draw (List Prepared) := do
  let plans ← d.prepare p
  ExceptT.mk (pure (plans.mapM p.optimizePrepared))

/-- Compiles a single query. -/
def Query.compile (p : Planner) (q : Query) : Draw Prepared := do
  let plan ← q.prepare p
  ExceptT.mk (pure (p.optimizePrepared plan))

end QuadAlgebra
