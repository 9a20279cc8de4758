import Mathlib.Order.Bounds.Defs
import QuadAlgebra.Compilation
import QuadAlgebra.Proofs.Optimization.Cascades
import QuadAlgebra.Proofs.Plan.Symmetry
import QuadAlgebra.Semantics.Plan
import QuadAlgebra.Syntax.Build

/-!
# How far cascades reach

However a graph has come about (`Graph.Built`), a cascade removes the least closed set of operators
that holds the one it starts from, and nothing else changes (`Reshape.cascade_least`).

A scan that is known to be empty is removed together with the consumers that require it. Grouping
counts as such a consumer, but without key variables it makes one solution of no solutions: a count
over an empty scan answers zero as drawn and nothing once the scan is pruned (`pruned_count`).
-/

namespace QuadAlgebra

namespace Graph

variable {γ : Type}

/-- The graphs that changes make of the empty graph, one after the other and whether they fail or
not: edits, other operators in slots except that of the root, edges that consumers learn of
afterwards, and variable sets that are computed anew. -/
inductive Built : Graph γ → Prop where
  | empty : Built empty
  | performed {g : Graph γ} (h : Built g) (edit : GraphEdit γ) : Built (g.performed edit)
  | replaced {g : Graph γ} (h : Built g) (id : OperatorId) (op : Operator γ) (hid : id ≠ root) :
      Built ((setOperator id op).runOn g).2
  | pushed {g : Graph γ} (h : Built g) (pushes : List (OperatorId × Edge))
      (hpushes : ∀ p ∈ pushes, g.contains p.2.target = true) : Built (g.pushed pushes).setParents
  | refreshed {g : Graph γ} (h : Built g) : Built (updateVariables.runOn g).2

/-! ## Built graphs -/

theorem updateVariables_error {g g' : Graph γ} {e : Error}
    (h : updateVariables.runOn g = (.error e, g')) : g' = g := by
  unfold updateVariables at h
  rw [Edit.runOn_bind, Edit.runOn_get] at h
  cases hbounds : g.bounds with
  | error e' =>
      simp only [hbounds] at h
      exact (Prod.mk.inj h).2.symm
  | ok values =>
      simp only [hbounds] at h
      cases (Prod.mk.inj h).1

namespace Built

variable {g : Graph γ}

theorem edited (edits : List (GraphEdit γ)) : (Graph.edited edits).Built := by
  suffices ∀ g : Graph γ, g.Built → (edits.foldl Graph.performed g).Built from this _ .empty
  induction edits with
  | nil => exact fun _ h => h
  | cons edit rest ih => exact fun g h => ih _ (h.performed edit)

/-- Both sides of every edge agree, and the root is in its slot. -/
theorem sound (h : g.Built) : g.Balanced ∧ g.operator? root = some .root := by
  induction h with
  | empty => exact ⟨symmetric_empty.balanced, rfl⟩
  | @performed g _ edit ih =>
      rcases hrun : edit.perform.runOn g with ⟨_ | u, g'⟩
      · rw [Graph.performed, hrun, performed_error ih.1.linked hrun]
        exact ih
      · rw [Graph.performed, hrun]
        exact ⟨perform_keeps_balanced edit g ih.1 u g' hrun,
          perform_keeps_root edit ih.2 u g' hrun⟩
  | @replaced g _ id op hid ih =>
      unfold setOperator
      rw [Edit.runOn_bind, require_runOn]
      cases hn : g.node? id with
      | none => exact ih
      | some n =>
          refine ⟨balanced_congr succeeding_mapNode_operator preceding_mapNode_operator ih.1, ?_⟩
          change (g.mapNode id fun n => { n with operator := op }).operator? root = _
          rw [operator?_mapNode_operator (by simp [contains, hn]), if_neg (Ne.symm hid)]
          exact ih.2
  | @pushed g _ pushes hpushes ih =>
      refine ⟨balanced_pushed ih.1.linked hpushes, ?_⟩
      rw [operator?_setParents, operator?_pushed]
      exact ih.2
  | @refreshed g _ ih =>
      rcases hrun : updateVariables.runOn g with ⟨e | u, g'⟩
      · rw [updateVariables_error hrun]
        exact ih
      · obtain ⟨-, hsame⟩ := updateVariables_eq_ok hrun
        exact ⟨balanced_congr hsame.succeeding hsame.preceding ih.1,
          (hsame.operator? root).trans ih.2⟩

end Built

end Graph

namespace Reshape

variable {γ : Type} {g : Graph γ} {id : OperatorId} {op : Operator γ}

/-- A cascade from an operator that is neither the root nor a result removes the least closed set
that holds it, as many operators as it says. All others keep their slots, their variable sets and
their edges with each other in order, both sides of which agree, and the index is that of the new
graph. -/
theorem cascade_least (h : g.Built) (hop : g.operator? id = some op) (hremovable : op.Removable) :
    ∃ gone : List OperatorId, gone.Nodup ∧
      (∀ x ∈ gone, ∃ op, g.operator? x = some op ∧ op.Removable) ∧
      IsLeast {S | id ∈ S ∧ Closed g.operator? g.Reads S} {x | x ∈ gone} ∧
      (cascade id).runOn (.ofGraph g) = (.ok gone.length, .ofGraph (g.without gone)) ∧
      (g.without gone).verifyEdges = .ok () := by
  obtain ⟨hbalanced, hroot⟩ := h.sound
  have hruns : (cascade id).Runs (.ofGraph g) _ := runs_cascade_without hbalanced.linked hroot
  obtain ⟨n, w, hrun, gone, hw, hlength, hexhausts⟩ := hruns
  have hindexed : w.Indexed :=
    Workspace.keptBySteps_indexed.cascade id _ (Workspace.indexed_ofGraph g) n w hrun
  have hkept : w.graph.Balanced :=
    Workspace.keptBySteps_balanced.cascade id (.ofGraph g) hbalanced n w hrun
  have hofGraph : w = .ofGraph (g.without gone) := by
    obtain ⟨graph, index⟩ := w
    obtain rfl : graph = g.without gone := hw
    obtain rfl : index = .ofGraph (g.without gone) := hindexed
    rfl
  refine ⟨gone, hexhausts.nodup, hexhausts.removable, ⟨⟨?_, hexhausts.closed⟩, ?_⟩, ?_, ?_⟩
  · exact hexhausts.done id (List.mem_singleton_self id) op hop hremovable
  · rintro S ⟨hid, hS⟩ x hx
    refine hexhausts.least S hS (fun _ hx => absurd hx List.not_mem_nil) (fun y hy _ _ _ => ?_) x hx
    rwa [List.mem_singleton.1 hy]
  · rw [hrun, hlength, hofGraph]
  · rw [hofGraph] at hkept
    exact Graph.verifyEdges_eq_ok.2 hkept

/-- A result over the join of two probes, one of them without duplicates. -/
def joinedProbes : Graph Unit := .edited [
  .add (.probe none), .add (.probe none), .add .distinct, .add .join, .add (.result .ask),
  .connect 0 1 0 false, .connect 0 2 0 false, .connect 2 3 0 false, .connect 1 4 0 false,
  .connect 3 4 1 false, .connect 4 5 0 false]

theorem cascade_least_joinedProbes :
    joinedProbes.operator? 1 = some (.probe none) ∧
    (Operator.probe none : Operator Unit).Removable ∧
    ∃ gone : List OperatorId, gone.Nodup ∧
      (∀ x ∈ gone, ∃ op, joinedProbes.operator? x = some op ∧ op.Removable) ∧
      IsLeast {S | 1 ∈ S ∧ Closed joinedProbes.operator? joinedProbes.Reads S} {x | x ∈ gone} ∧
      (cascade 1).runOn (.ofGraph joinedProbes) =
        (.ok gone.length, .ofGraph (joinedProbes.without gone)) ∧
      (joinedProbes.without gone).verifyEdges = .ok () :=
  have hop : joinedProbes.operator? 1 = some (.probe none) := rfl
  have hremovable : (Operator.probe none : Operator Unit).Removable := by
    constructor <;> simp [Operator.kind]
  ⟨hop, hremovable, cascade_least (.edited _) hop hremovable⟩

/-- Without one of the probes the join is starved, and then nothing reads the other one. -/
example : ((cascade 1).runOn (.ofGraph joinedProbes)).1 = .ok 4 := by decide +kernel

end Reshape

/-! ## Pruned queries -/

/-- The plan after `removeEmptyScan` at one of its scans. -/
def Plan.prunedAt (provesEmpty : IndexScan → Bool) (p : Plan) (scan : OperatorId) :
    Except Error Plan :=
  let (outcome, w) := (Reshape.tryAt (.removeEmptyScan provesEmpty) scan).runOn (.ofGraph p.graph)
  outcome.map fun _ => ⟨w.graph⟩

/-- The solutions of a query over a store, with its plan as drawn and with the plan pruned at one of
its scans. -/
def Query.solutionsPruned (q : Query) (store : Store) (scan : OperatorId) :
    Except Error (List Solution × List Solution) := do
  let planner : Planner := .ofStore store
  let drawn ← ((q.prepare planner).runOn .empty).1
  let pruned ← drawn.plan.prunedAt planner.scans.provesEmpty scan
  let src : Source := ⟨store, drawn.dataset⟩
  return ((← drawn.plan.evaluate src defaultIterations).solutions,
    (← pruned.evaluate src defaultIterations).solutions)

/-- How many triples have the predicate `p`. -/
def countQuery : Query :=
  .select (.explicit [.computed (.ofAggregate .count none) ⟨"n"⟩])
    (.ofTriples [⟨.var ⟨"s"⟩, .term (.iri "p"), .var ⟨"o"⟩⟩])

/-- Grouping without key variables does not yield nothing when nothing arrives, so pruning the empty
scan below it loses the count. -/
theorem pruned_count :
    countQuery.solutionsPruned .empty 5 =
      .ok ([(∅ : Solution).insert ⟨"n"⟩ (.integer 0)], []) := by
  decide +kernel

end QuadAlgebra
