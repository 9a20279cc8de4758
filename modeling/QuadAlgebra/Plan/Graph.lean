import QuadAlgebra.Error
import QuadAlgebra.Ordered.List

/-!
# Operator graphs

Operators sit in numbered slots; a slot that has been emptied is never used again. An edge leads
from a producer to a consumer and says on which operand the consumer reads it. It is recorded on
both sides: the producer holds the edge, the consumer holds the producer once per edge. An edge
that closes a loop is marked as feedback.

Slot 0 holds the root, from which all rows come in the end.
-/

namespace QuadAlgebra

/-- An edge, seen from its producer. -/
structure Edge where
  target : OperatorId
  operand : Nat
  feedback : Bool
deriving DecidableEq, Inhabited

/-- An edge, seen from its consumer. -/
structure Input where
  source : OperatorId
  operand : Nat
  feedback : Bool
deriving DecidableEq, Inhabited

/-- An operator with its edges and what is known about its variables. -/
structure Node (γ : Type) where
  operator : Operator γ
  preceding : List OperatorId
  succeeding : List Edge
  /-- Variables that every solution of the operator binds. -/
  certain : VarSet
  /-- Variables that some solution of the operator may bind. -/
  possible : VarSet

structure Graph (γ : Type) where
  slots : List (Option (Node γ))

namespace Node

variable {γ : Type}

/-- An operator without edges. -/
def isolated (op : Operator γ) : Node γ := ⟨op, [], [], ∅, ∅⟩

end Node

namespace Graph

variable {γ : Type}

/-- The number of the root operator. -/
def root : OperatorId := 0

/-- A graph that holds only its root. -/
def empty : Graph γ := ⟨[some (.isolated .root)]⟩

instance : Inhabited (Graph γ) := ⟨empty⟩

/-! ## Looking at a graph -/

def node? (g : Graph γ) (id : OperatorId) : Option (Node γ) := g.slots[id]?.join

def contains (g : Graph γ) (id : OperatorId) : Bool := (g.node? id).isSome

def operator? (g : Graph γ) (id : OperatorId) : Option (Operator γ) :=
  (g.node? id).map Node.operator

def kind? (g : Graph γ) (id : OperatorId) : Option Kind := (g.operator? id).map Operator.kind

/-- The operators of the graph, in order of their numbers. -/
def ids (g : Graph γ) : List OperatorId := (List.range g.slots.length).filter g.contains

def size (g : Graph γ) : Nat := g.ids.length

def find (g : Graph γ) (kind : Kind) : List OperatorId :=
  g.ids.filter fun id => g.kind? id == some kind

def results (g : Graph γ) : List OperatorId := g.find .result

def preceding (g : Graph γ) (id : OperatorId) : List OperatorId :=
  ((g.node? id).map Node.preceding).getD []

def succeeding (g : Graph γ) (id : OperatorId) : List Edge :=
  ((g.node? id).map Node.succeeding).getD []

/-- The edges from one operator to another, as the consumer sees them. -/
def edgesBetween (g : Graph γ) (source target : OperatorId) : List Input :=
  ((g.succeeding source).filter (·.target == target)).map fun e => ⟨source, e.operand, e.feedback⟩

/-- The edges into an operator, by operand and then in the order of the producers. -/
def inputs (g : Graph γ) (id : OperatorId) : List Input :=
  stableSort (fun a b => compare a.operand b.operand)
    ((distinctOf (g.preceding id)).flatMap fun source => g.edgesBetween source id)

/-- The edges into an operator, grouped by operand. -/
def operandGroups (g : Graph γ) (id : OperatorId) : List (Nat × List Input) :=
  let inputs := g.inputs id
  (distinctOf (inputs.map Input.operand)).map fun k => (k, inputs.filter (·.operand == k))

/-- The producers that an operator reads on one operand. -/
def operand (g : Graph γ) (id : OperatorId) (k : Nat) : List OperatorId :=
  ((g.inputs id).filter (·.operand == k)).map Input.source

/-- The operator, or the fault that there is none. -/
def operator (g : Graph γ) (id : OperatorId) : Except Error (Operator γ) :=
  match g.operator? id with
  | some op => .ok op
  | none => .error (.internal (.unknownOperator id))

/-! ## Changing a graph -/

def mapNode (g : Graph γ) (id : OperatorId) (f : Node γ → Node γ) : Graph γ :=
  ⟨g.slots.modify id (Option.map f)⟩

/-- Adds an operator without edges and returns its number. -/
def add (op : Operator γ) : Edit (Graph γ) OperatorId := do
  let g ← get
  set (⟨g.slots ++ [some (.isolated op)]⟩ : Graph γ)
  return g.slots.length

/-- Stops unless the operator is there. -/
def require (id : OperatorId) : Edit (Graph γ) (Node γ) := do
  match (← get).node? id with
  | some n => return n
  | none => Edit.fault (.unknownOperator id)

/-- Records an edge on both sides. An edge that is already there is not added again. -/
def connect (source target : OperatorId) (operand : Nat) (feedback : Bool) :
    Edit (Graph γ) Unit := do
  if !(← get).contains target then
    Edit.fault (.removedTarget source target)
  let edge : Edge := ⟨target, operand, feedback⟩
  let node ← require source
  if node.succeeding.contains edge then
    return
  modify fun g =>
    (g.mapNode source fun n => { n with succeeding := n.succeeding ++ [edge] }).mapNode target
      fun n => { n with preceding := n.preceding ++ [source] }

/-- Removes all edges from one operator to another. -/
def disconnect (source target : OperatorId) : Edit (Graph γ) Unit := do
  let _ ← require source
  modify fun g => g.mapNode source fun n =>
    { n with succeeding := n.succeeding.filter (·.target != target) }
  let _ ← require target
  modify fun g => g.mapNode target fun n =>
    { n with preceding := n.preceding.filter (· != source) }

/-- Takes an operator out of the graph, together with its edges. -/
def remove (id : OperatorId) : Edit (Graph γ) (Operator γ) := do
  if id = root then
    Edit.fault .rootRemoval
  let node ← require id
  node.preceding.forM fun source => disconnect source id
  node.succeeding.forM fun edge => disconnect id edge.target
  modify fun g => ⟨g.slots.set id none⟩
  return node.operator

/-- Puts another operator into a slot. The edges stay. -/
def setOperator (id : OperatorId) (op : Operator γ) : Edit (Graph γ) Unit := do
  let _ ← require id
  modify fun g => g.mapNode id fun n => { n with operator := op }

/-- Records an edge on the side of its producer only. -/
def pushSucceeding (source : OperatorId) (edge : Edge) : Edit (Graph γ) Unit := do
  let _ ← require source
  modify fun g => g.mapNode source fun n => { n with succeeding := n.succeeding ++ [edge] }

/-- The producers that have an edge to an operator, once per edge. -/
def producers (g : Graph γ) (id : OperatorId) : List OperatorId :=
  g.ids.flatMap fun source => (g.edgesBetween source id).map Input.source

/-- Makes what the consumers record agree with what the producers record. -/
def setParents (g : Graph γ) : Graph γ :=
  g.ids.foldl (fun h id => h.mapNode id fun n => { n with preceding := g.producers id }) g

/-! ## Agreement of both sides of the edges -/

/-- Whether two operators record the same number of edges from the first to the second. -/
def agreeing (g : Graph γ) (source target : OperatorId) : Bool :=
  (g.edgesBetween source target).length == (g.preceding target).count source

/-- The edges at an operator that are not recorded alike on both sides, as pairs of producer and
consumer. -/
def oneSided (g : Graph γ) (id : OperatorId) : List (OperatorId × OperatorId) :=
  let outgoing := (g.succeeding id).filter fun e => !(g.contains e.target && g.agreeing id e.target)
  let incoming := (g.preceding id).filter fun source => (g.edgesBetween source id).isEmpty
  outgoing.map (fun e => (id, e.target)) ++ incoming.map (fun source => (source, id))

def verifyEdges (g : Graph γ) : Except Error Unit :=
  match g.ids.flatMap g.oneSided with
  | [] => .ok ()
  | (source, target) :: _ => .error (.internal (.oneSidedEdge source target))

end Graph

end QuadAlgebra
