import QuadAlgebra.Planning.Pattern

/-!
# Plans for documents

A query has one plan and so has a whole rule program; an update request has one plan per operation.
Every plan ends in a result that says what the rows mean. The plan of an update has the changes
made from the solutions of its pattern. In the plan of a rule program every head feeds every
matcher of a body over a feedback edge, which is what makes the rules recursive.
-/

namespace QuadAlgebra

/-- A plan with the graphs that it reads. -/
structure Prepared where
  plan : Plan
  dataset : Dataset

namespace Draw

/-- Builds a plan from an empty graph. Only the numbers handed out are kept for the next plan, also
after a failure. -/
def prepared (d : Dataset) (build : Draw Unit) : Draw Prepared := ExceptT.mk do
  let before ← StateT.get
  let drawing : Draw Unit := do
    build
    onGraph Graph.updateVariables
  let (outcome, after) := drawing.runOn { before with graph := .empty, wiring := .none }
  set { after with graph := .empty, wiring := .none }
  return outcome.map fun _ => ⟨⟨after.graph⟩, d⟩

/-- Adds the result of a plan. -/
def addResult (form : ResultForm) : Draw Cursor := do
  return ⟨← add (.result form), 0⟩

/-- Lets other operands read what a first one reads. -/
def shareInputs (first : Cursor) (others : List Cursor) : Draw Unit := do
  let producers := (← get).graph.operand first.target first.operand
  others.forM fun other => producers.forM other.feed

end Draw

/-! ## Queries -/

namespace Query

/-- The variables of a selection, in the order in which it lists them. -/
def shownVariables (q : Query) : List Variable :=
  match q.form with
  | .select _ (.explicit items) => items.map SelectItem.target
  | _ => q.scope.toList.filter (!·.isInterim)

/-- Plans a query whose dataset the planner reads. -/
def draw (p : Planner) (q : Query) : Draw Unit :=
  match q.form with
  | .select _ _ => do
    q.drawSolutions p none (← Draw.addResult (.select q.shownVariables))
  | .construct template => do
    let result ← Draw.addResult .construct
    q.drawSolutions p none (← result.attach (.construct (template.map fun t => ⟨none, t⟩)))
  | .ask => do
    let result ← Draw.addResult .ask
    drawPattern p none q.pattern (← result.attach (.limit 1))
  | .describe resources => do
    let result ← Draw.addResult .describe
    q.drawSolutions p none (← result.attach (.describe resources))

def prepare (p : Planner) (q : Query) : Draw Prepared := do
  let p ← p.within q.dataset
  Draw.prepared p.dataset (q.draw p)

end Query

/-! ## Updates -/

/-- The ability that a command needs. -/
def GraphCommand.feature? : GraphCommand → Option String
  | .load _ (some _) _ => some "LOAD INTO GRAPH"
  | .create _ _ => some "CREATE GRAPH"
  | .clear (.named _) _ | .clear .allNamed _ | .drop (.named _) _ | .drop .allNamed _ =>
    some "named graph targets"
  | _ => none

namespace QuadPattern

/-- Puts a quad without a graph into the given one. -/
def within (graph : Option Term) (q : QuadPattern) : QuadPattern :=
  { q with graph := q.graph.or (graph.map .term) }

/-- The element of a pattern that matches a quad. -/
def toElement (q : QuadPattern) : Element :=
  match q.graph with
  | none => .triple q.triple
  | some name => .graph name (.ofTriples [q.triple])

end QuadPattern

namespace Planner

/-- Stops if a template names a graph although there is only one. -/
def requireTemplates (p : Planner) (template : List QuadPattern) : Draw Unit := do
  if template.any (·.graph.isSome) then
    require p.config.capabilities.namedGraphs "GRAPH templates"

/-- Attaches a change whose quads a template describes. -/
def attachChange (c : Cursor) (change : Operator Plan) (template : List QuadPattern) :
    Draw Cursor := do
  (← c.attach change).attach (.construct template)

end Planner

/-- Stops at a quad that is not plain data. -/
def checkData (inserting : Bool) (quads : List QuadPattern) : Draw Unit :=
  quads.forM fun q => do
    if q.hasVariables then
      Draw.malformed (.variableInData inserting q.triple)
    if q.hasBlanks then
      Draw.malformed (.blankInData inserting q.triple)

/-- Stops at a blank node in the template of a deletion. -/
def checkDeletion (template : List QuadPattern) : Draw Unit := do
  if let some q := template.find? QuadPattern.hasBlanks then
    Draw.malformed (.blankInDelete q.triple)

/-- Plans an insertion or deletion of data. -/
def drawData (p : Planner) (inserting : Bool) (quads : List QuadPattern) : Draw Unit := do
  let result ← Draw.addResult .update
  checkData inserting quads
  p.requireTemplates quads
  let c ← Planner.attachChange result (if inserting then .insert else .delete) quads
  c.attachSource (.probe none)

/-- Plans a modification whose dataset the planner reads. Both templates read the same
solutions. -/
def Modification.draw (p : Planner) (m : Modification) : Draw Unit := do
  checkDeletion m.delete
  if m.within.isSome then
    Planner.require p.config.capabilities.namedGraphs "WITH"
  let result ← Draw.addResult .update
  let delete := m.delete.map (·.within m.within)
  let insert := m.insert.map (·.within m.within)
  p.requireTemplates delete
  p.requireTemplates insert
  let deleting ← if delete.isEmpty then pure [] else do
    pure [← Planner.attachChange result .delete delete]
  let inserting ← if insert.isEmpty then pure [] else do
    pure [← Planner.attachChange result .insert insert]
  match deleting ++ inserting with
  | [] => Draw.malformed .emptyModification
  | first :: others => do
    let graph := if m.dataset.isSome then none else m.within.map .term
    m.pattern.draw p graph first
    Draw.shareInputs first others

namespace UpdateOperation

/-- Plans an operation in the dataset that the planner reads. -/
def draw (p : Planner) : UpdateOperation → Draw Unit
  | .insertData quads => drawData p true quads
  | .deleteData quads => drawData p false quads
  | .deleteWhere quads => do
    let result ← Draw.addResult .update
    checkDeletion quads
    p.requireTemplates quads
    let c ← Planner.attachChange result .delete quads
    Group.draw p none ⟨quads.map QuadPattern.toElement⟩ c
  | .modify change => change.draw p
  | .command c => do
    let result ← Draw.addResult .update
    if let some feature := c.feature? then
      Planner.require p.config.capabilities.namedGraphs feature
    (← result.attach (.command c)).attachSource (.probe none)

/-- The dataset that an operation chooses itself. -/
def dataset? : UpdateOperation → Option DatasetClause
  | .modify change => change.dataset
  | _ => none

def prepare (p : Planner) (op : UpdateOperation) : Draw Prepared := do
  let p ← p.within op.dataset?
  Draw.prepared p.dataset (op.draw p)

end UpdateOperation

/-! ## Rule programs -/

/-- Adds a head and remembers it for the wiring. -/
def RuleHead.draw : RuleHead → Draw OperatorId
  | .triple t => do
    let id ← Draw.add (.generate t)
    modify fun d =>
      { d with wiring := { d.wiring with generators := d.wiring.generators ++ [id] } }
    return id
  | .atom a => do
    let id ← Draw.add (.constructAtom a)
    modify fun d =>
      { d with wiring := { d.wiring with atomHeads := d.wiring.atomHeads ++ [id] } }
    return id

/-- Plans a rule. All its heads read the solutions of the body. -/
def Rule.draw (p : Planner) (result : Cursor) (r : Rule) : Draw Unit := do
  let heads ← r.heads.mapM fun head => do
    let id ← head.draw
    result.feed id
    return (⟨id, 0⟩ : Cursor)
  match heads with
  | [] => Draw.malformed .ruleWithoutHead
  | first :: others => do
    r.body.draw p none first
    Draw.shareInputs first others

/-- Adds feedback edges from all producers to all consumers. They are recorded on the side of the
producers only. -/
def linkAll (producers consumers : List OperatorId) : Edit (Graph Plan) Unit :=
  producers.forM fun producer => consumers.forM fun consumer =>
    Graph.pushSucceeding producer ⟨consumer, 0, true⟩

/-- Feeds what the heads derive back to the matchers. -/
def Wiring.link (w : Wiring) : Edit (Graph Plan) Unit := do
  linkAll w.generators w.tripleMatchers
  linkAll w.atomHeads w.atomMatchers
  modify Graph.setParents

namespace RuleProgram

def draw (p : Planner) (r : RuleProgram) : Draw Unit := do
  let result ← Draw.addResult (.materialize r.output)
  r.rules.forM (Rule.draw { p with inRules := true } result)
  Draw.onGraph (← get).wiring.link

def prepare (p : Planner) (r : RuleProgram) : Draw Prepared := Draw.prepared p.dataset (r.draw p)

end RuleProgram

/-! ## Documents -/

/-- The plans of a document, in the order in which they are to be carried out. -/
def Document.prepare (p : Planner) : Document → Draw (List Prepared)
  | .query q => do return [← q.prepare p]
  | .update u => u.operations.mapM (·.prepare p)
  | .rules r => do return [← r.prepare p]

end QuadAlgebra
