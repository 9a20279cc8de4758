import QuadAlgebra.Plan.Variables

/-!
# Plans

A plan is a graph whose filters carry plans in turn. Whatever is computed from a plan alone is
computed inside out by `Plan.fold`: first for the nested plans, then for the graph in which their
results have taken their places (`Plan.fold_eq`).
-/

namespace QuadAlgebra

namespace Graph

variable {γ δ : Type}

def mapNested (f : γ → δ) (g : Graph γ) : Graph δ :=
  ⟨g.slots.map fun slot => slot.map fun n =>
    ⟨n.operator.withNested (n.operator.nested.map fun e => (e.1, f e.2)), n.preceding, n.succeeding,
      n.certain, n.possible⟩⟩

end Graph

/-- A graph with plans for the existence patterns of its filters. -/
structure Plan where
  graph : Graph Plan

namespace Plan

instance : Inhabited Plan := ⟨⟨.empty⟩⟩

section Fold

variable {β : Type} (step : Graph β → β)

mutual

/-- Computes inside out. -/
def fold : Plan → β
  | ⟨⟨slots⟩⟩ => step ⟨foldSlots slots⟩

def foldSlots : List (Option (Node Plan)) → List (Option (Node β))
  | [] => []
  | none :: rest => none :: foldSlots rest
  | some n :: rest => some (foldNode n) :: foldSlots rest

def foldNode : Node Plan → Node β
  | ⟨.filter ⟨condition, nested, slot⟩, preceding, succeeding, certain, possible⟩ =>
    ⟨.filter ⟨condition, foldNested nested, slot⟩, preceding, succeeding, certain, possible⟩
  | ⟨op, preceding, succeeding, certain, possible⟩ =>
    ⟨op.withNested [], preceding, succeeding, certain, possible⟩

def foldNested : List (Nat × Plan) → List (Nat × β)
  | [] => []
  | (k, p) :: rest => (k, p.fold) :: foldNested rest

end

theorem foldNested_eq (l : List (Nat × Plan)) :
    foldNested step l = l.map fun e => (e.1, e.2.fold step) := by
  induction l with
  | nil => rfl
  | cons e rest ih => obtain ⟨k, p⟩ := e; simp [foldNested, ih]

theorem foldNode_eq (n : Node Plan) :
    foldNode step n = ⟨n.operator.withNested (n.operator.nested.map fun e => (e.1, e.2.fold step)),
      n.preceding, n.succeeding, n.certain, n.possible⟩ := by
  obtain ⟨op, preceding, succeeding, certain, possible⟩ := n
  cases op with
  | filter f =>
    obtain ⟨condition, nested, slot⟩ := f
    simp [foldNode, foldNested_eq, Operator.withNested, Operator.nested]
  | _ => rfl

theorem fold_eq (p : Plan) : p.fold step = step (p.graph.mapNested (·.fold step)) := by
  obtain ⟨⟨slots⟩⟩ := p
  suffices foldSlots step slots = (Graph.mapNested (·.fold step) ⟨slots⟩).slots by
    simp [fold, this]
  induction slots with
  | nil => rfl
  | cons slot rest ih =>
    cases slot with
    | none => simp [foldSlots, ih, Graph.mapNested]
    | some n => simp [foldSlots, ih, Graph.mapNested, foldNode_eq]

end Fold

end Plan

end QuadAlgebra
