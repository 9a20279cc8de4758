import QuadAlgebra.Config
import QuadAlgebra.Plan.Nested
import QuadAlgebra.Store.Basic

/-!
# Plans under construction

A plan is built from its result towards its sources. A cursor says which operand of which operator
is to be fed next. What stays fixed while a document is planned is in the planner; what changes,
the graph and the numbers handed out so far, is in the draft.
-/

namespace QuadAlgebra

/-! ## Scans -/

/-- How scans are made, and what is known about them beforehand. -/
structure ScanFactory where
  scan : List TriplePattern → Option Item → IndexScan
  /-- Whether a scan is known to have no solutions. -/
  provesEmpty : IndexScan → Bool

namespace ScanFactory

/-- Scans of a store in memory. A scan of the same dataset is empty if one of its patterns matches
no triple of any graph. -/
def ofStore (dataset : String) (store : Store) : ScanFactory where
  scan patterns graph := ⟨patterns, graph, ⟨dataset, true⟩⟩
  provesEmpty s := s.source.dataset == dataset && s.patterns.any fun p =>
    !store.hasMatch p.subject.term? p.predicate.term? p.object.term?

end ScanFactory

/-! ## Planners and drafts -/

/-- What planning takes for granted. -/
structure Planner where
  scans : ScanFactory
  /-- The evaluator that keeps the conditions of filters. -/
  evaluator : String
  config : Config
  dataset : Dataset
  /-- Whether the body of a rule is planned. -/
  inRules : Bool

/-- Plans for a store in memory, under the standard configuration. -/
def Planner.ofStore (store : Store) : Planner :=
  ⟨.ofStore "memory" store, "memory", .standard, .empty, false⟩

/-- The operators of a rule program that are connected once all rules are planned. -/
structure Wiring where
  generators : List OperatorId
  tripleMatchers : List OperatorId
  atomHeads : List OperatorId
  atomMatchers : List OperatorId

/-- A plan under construction and the numbers handed out so far. -/
structure Draft where
  graph : Graph Plan
  /-- The number of the next interim variable. -/
  nextVar : Nat
  /-- The number of conditions that the evaluator has accepted. -/
  nextSlot : Nat
  wiring : Wiring

def Wiring.none : Wiring := ⟨[], [], [], []⟩

namespace Draft

def empty : Draft := ⟨.empty, 0, 0, .none⟩

end Draft

/-- A step in the construction of a plan. -/
abbrev Draw := Edit Draft

namespace Draw

variable {α : Type}

def onGraph (edit : Edit (Graph Plan) α) : Draw α :=
  Edit.within Draft.graph (fun g d => { d with graph := g }) edit

def add (op : Operator Plan) : Draw OperatorId := onGraph (Graph.add op)

/-- Adds a forward edge. -/
def connect (source target : OperatorId) (operand : Nat) : Draw Unit :=
  onGraph (Graph.connect source target operand false)

def freshVar : Draw Variable := do
  let d ← get
  set { d with nextVar := d.nextVar + 1 }
  return .interim d.nextVar

def malformed (cause : Malformed) : Draw α := throw (.malformed cause)

def unsupported (cause : Unsupported) : Draw α := throw (.unsupported cause)

/-- Adds an operator that is fed by the root. -/
def addSource (op : Operator Plan) : Draw OperatorId := do
  let id ← add op
  connect Graph.root id 0
  return id

end Draw

/-! ## Cursors -/

/-- An operand that is to be fed. -/
structure Cursor where
  target : OperatorId
  operand : Nat
deriving DecidableEq

namespace Cursor

/-- Feeds the operand from a new operator, whose own operand is to be fed next. -/
def attach (c : Cursor) (op : Operator Plan) : Draw Cursor := do
  let id ← Draw.add op
  Draw.connect id c.target c.operand
  return ⟨id, 0⟩

/-- Attaches several operators one above the other. -/
def attachAll (c : Cursor) (ops : List (Operator Plan)) : Draw Cursor := ops.foldlM attach c

/-- Feeds the operand from a new operator that the root feeds. -/
def attachSource (c : Cursor) (op : Operator Plan) : Draw Unit := do
  let id ← Draw.addSource op
  Draw.connect id c.target c.operand

/-- Feeds the operand from an operator that is there. -/
def feed (c : Cursor) (producer : OperatorId) : Draw Unit :=
  Draw.connect producer c.target c.operand

/-- Another operand of the same operator. -/
def sibling (c : Cursor) (operand : Nat) : Cursor := ⟨c.target, operand⟩

end Cursor

namespace Planner

/-- Stops unless the evaluator has an ability. -/
def require (enabled : Bool) (feature : String) : Draw Unit :=
  if enabled then pure () else Draw.unsupported (.capability feature)

/-- The planner for a document that may choose its own graphs. -/
def within (p : Planner) (clause : Option DatasetClause) : Draw Planner :=
  match clause with
  | none => pure p
  | some c => do
    if !c.namedGraphs.isEmpty then
      require p.config.capabilities.namedGraphs "FROM NAMED"
    return { p with dataset := .ofClause c }

/-- A scan of some patterns. -/
def scan (p : Planner) (patterns : List TriplePattern) (graph : Option Item) : Operator Plan :=
  .scan (p.scans.scan patterns graph)

end Planner

end QuadAlgebra
