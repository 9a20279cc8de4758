import QuadAlgebra.Plan.Variables
import QuadAlgebra.Optimization.Index

/-!
# Graphs under change

While rules change a graph an index of its operators is kept along with it. Every step changes both
together, so an index that agreed with its graph still does.
-/

namespace QuadAlgebra

/-- A graph with the index of its operators. -/
structure Workspace (γ : Type) where
  graph : Graph γ
  index : KindIndex

/-- A step that changes a graph together with its index. -/
abbrev Reshape (γ : Type) := Edit (Workspace γ)

def Workspace.ofGraph {γ : Type} (g : Graph γ) : Workspace γ := ⟨g, .ofGraph g⟩

namespace Reshape

variable {γ α : Type}

def onGraph (edit : Edit (Graph γ) α) : Reshape γ α :=
  Edit.within Workspace.graph (fun g w => { w with graph := g }) edit

def onIndex (f : KindIndex → KindIndex) : Reshape γ Unit :=
  modify fun w => { w with index := f w.index }

/-- Looks at the graph. -/
def look (f : Graph γ → α) : Reshape γ α := do return f (← get).graph

/-- The operator, or the fault that there is none. -/
def operator (id : OperatorId) : Reshape γ (Operator γ) := do
  match (← get).graph.operator? id with
  | some op => return op
  | none => Edit.fault (.unknownOperator id)

/-! ## Single steps -/

def add (op : Operator γ) : Reshape γ OperatorId := do
  let id ← onGraph (Graph.add op)
  onIndex (·.insert op.kind id)
  return id

def connect (source target : OperatorId) (operand : Nat) (feedback : Bool) : Reshape γ Unit :=
  onGraph (Graph.connect source target operand feedback)

def disconnect (source target : OperatorId) : Reshape γ Unit :=
  onGraph (Graph.disconnect source target)

def remove (id : OperatorId) : Reshape γ Unit := do
  let op ← onGraph (Graph.remove id)
  onIndex (·.remove op.kind id)

/-- Puts another operator into a slot. The edges stay. -/
def replaceOperator (id : OperatorId) (op : Operator γ) : Reshape γ Unit := do
  let old ← operator id
  onGraph (Graph.setOperator id op)
  onIndex fun x => (x.remove old.kind id).insert op.kind id

/-- Adds an operator that reads another one. -/
def above (input : OperatorId) (op : Operator γ) : Reshape γ OperatorId := do
  let id ← add op
  connect input id 0 false
  return id

/-- Feeds consumers from another producer, over the same operands. -/
def feedAll (source : OperatorId) (edges : List Edge) : Reshape γ Unit :=
  edges.forM fun e => connect source e.target e.operand e.feedback

/-- Makes all consumers of one operator read another one instead. -/
def redirectOutputs (source replacement : OperatorId) : Reshape γ Unit := do
  (← look (·.succeeding source)).forM fun e => do
    disconnect source e.target
    connect replacement e.target e.operand e.feedback

/-- Puts an operator on the edges from a producer to a consumer. The given edge is kept behind the
operator. -/
def insertBetween (input : Input) (consumer : OperatorId) (op : Operator γ) :
    Reshape γ OperatorId := do
  let id ← add op
  disconnect input.source consumer
  connect input.source id 0 false
  connect id consumer input.operand input.feedback
  return id

end Reshape

/-! ## Cascades -/

namespace Graph

variable {γ : Type}

/-- Whether a cascade may remove the operator. -/
def isRemovable (g : Graph γ) (id : OperatorId) : Bool :=
  match g.kind? id with
  | none | some .root | some .result => false
  | _ => true

/-- Whether an operator emits nothing for lack of inputs: it has none at all, or none on an operand
that it requires. -/
def isStarved (g : Graph γ) (id : OperatorId) (operand : Nat) : Bool :=
  match g.operator? id with
  | none | some .root | some (.result _) => false
  | some op =>
    (g.inputs id).isEmpty ||
      (!(g.inputs id).any (·.operand == operand) && op.requires operand)

/-- Whether no operator reads from this one. -/
def isUnread (g : Graph γ) (id : OperatorId) : Bool := g.contains id && (g.succeeding id).isEmpty

end Graph

namespace Reshape

variable {γ : Type}

/-- Removes operators from a stack, together with all that contributes nothing once they are gone:
consumers that are starved and producers that nothing reads. The first argument bounds the number
of removals. Returns how many there were. -/
def cascadeFrom : Nat → List OperatorId → Reshape γ Nat
  | 0, _ => return 0
  | bound + 1, pending => do
    let g := (← get).graph
    match pending.dropWhile (!g.isRemovable ·) with
    | [] => return 0
    | id :: rest =>
      let producers := g.preceding id
      let consumers := g.succeeding id
      remove id
      let h := (← get).graph
      let starved := (consumers.filter fun e => h.isStarved e.target e.operand).map Edge.target
      let unread := producers.filter h.isUnread
      return (← cascadeFrom bound (unread.reverse ++ starved.reverse ++ rest)) + 1

/-- Removes an operator with all that contributes nothing without it. The root and the results
stay. -/
def cascade (id : OperatorId) : Reshape γ Nat := do
  cascadeFrom (← get).graph.slots.length [id]

/-! ## Checks -/

/-- Computes the variable sets anew. -/
def refresh : Reshape γ Unit := onGraph Graph.updateVariables

end Reshape

/-- Stops unless both sides of all edges agree, and the index agrees with the graph. -/
def Workspace.verify {γ : Type} (w : Workspace γ) : Except Error Unit := do
  w.graph.verifyEdges
  w.index.verify w.graph

end QuadAlgebra
