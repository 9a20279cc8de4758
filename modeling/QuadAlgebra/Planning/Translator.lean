import QuadAlgebra.Planning.Document

/-!
# Translators

A translator plans one document after another. It owns what planning changes: the dataset, which
FROM and USING exchange for the time of one query or operation, the wiring, which is there only
while the rules of a program are planned, the graph under construction and the numbers handed out.
A call that fails leaves the graph as far as it was built, and it is left to the next call to begin
with an empty one.
-/

namespace QuadAlgebra

structure Translator where
  dataset : Dataset
  /-- The wiring of the rule program whose rules are planned, if any are. -/
  rules : Option Wiring
  graph : Graph Plan
  /-- The number of the next interim variable. -/
  nextVar : Nat
  /-- The number of conditions that the evaluator has accepted. -/
  nextSlot : Nat

namespace Translator

/-- A translator that has planned nothing yet. -/
def fresh (dataset : Dataset) (nextVar nextSlot : Nat) : Translator :=
  ⟨dataset, none, .empty, nextVar, nextSlot⟩

/-- The planner that reads the dataset of the translator, and plans rules if there is a wiring. -/
def planner (p : Planner) (t : Translator) : Planner :=
  { p with dataset := t.dataset, inRules := t.rules.isSome }

def draft (t : Translator) : Draft := ⟨t.graph, t.nextVar, t.nextSlot, t.rules.getD .none⟩

/-- The translator after a drawing. What is wired counts only where there is a wiring. -/
def drawn (t : Translator) (d : Draft) : Translator :=
  { t with
    rules := t.rules.map fun _ => d.wiring, graph := d.graph
    nextVar := d.nextVar, nextSlot := d.nextSlot }

end Translator

/-- A step of a translator. What it has changed stays changed when it fails. -/
abbrev Translate := Edit Translator

namespace Translate

variable {α : Type}

/-! ## Steps -/

/-- Draws in the graph of the translator. -/
def drawing (p : Planner) (draw : Planner → Draw α) : Translate α := do
  let p := (← get).planner p
  Edit.within Translator.draft (fun d t => t.drawn d) (draw p)

def onGraph (edit : Edit (Graph Plan) α) : Translate α :=
  Edit.within Translator.graph (fun g t => { t with graph := g }) edit

/-- Runs a step to its outcome, so that something can be done before a failure is passed on. -/
def attempt (step : Translate α) : Translate (Except Error α) := ExceptT.mk do
  return .ok (← step.run)

/-- Passes an outcome on. -/
def pass (outcome : Except Error α) : Translate α := ExceptT.mk (pure outcome)

/-- Begins a plan, and returns the dataset that it reads. -/
def start : Translate Dataset := do
  let t ← get
  set { t with graph := .empty }
  return t.dataset

/-- Hands out the graph that has been built. -/
def finish (dataset : Dataset) : Translate Prepared := do
  let t ← get
  set { t with graph := .empty }
  let (outcome, graph) := Graph.updateVariables.runOn t.graph
  pass (outcome.map fun _ => ⟨⟨graph⟩, dataset⟩)

/-- Builds one plan. -/
def plan (p : Planner) (draw : Planner → Draw Unit) : Translate Prepared := do
  let dataset ← start
  drawing p draw
  finish dataset

/-! ## Datasets -/

/-- Takes over the dataset that a document chooses, and returns the one to go back to. -/
def enterDataset (p : Planner) : Option DatasetClause → Translate (Option Dataset)
  | none => return none
  | some c => do
    if !c.namedGraphs.isEmpty then
      drawing p fun p => Planner.require p.config.capabilities.namedGraphs "FROM NAMED"
    let t ← get
    set { t with dataset := .ofClause c }
    return some t.dataset

def leaveDataset (previous : Option Dataset) : Translate Unit :=
  modify fun t => { t with dataset := previous.getD t.dataset }

/-- Takes a step in the dataset that a document chooses. -/
def within (p : Planner) (clause : Option DatasetClause) (step : Translate α) : Translate α := do
  let previous ← enterDataset p clause
  let outcome ← attempt step
  leaveDataset previous
  pass outcome

/-! ## Documents -/

def query (p : Planner) (q : Query) : Translate Prepared :=
  within p q.dataset (plan p fun p => q.draw p)

def operation (p : Planner) (op : UpdateOperation) : Translate Prepared :=
  within p op.dataset? (plan p fun p => op.draw p)

/-- Plans the rules of a program without the feedback between them. -/
def drawRules (r : RuleProgram) (p : Planner) : Draw Unit := do
  let result ← Draw.addResult (.materialize r.output)
  r.rules.forM (Rule.draw p result)

/-- Ends the planning of rules, and returns their wiring. -/
def takeWiring : Translate Wiring := do
  let t ← get
  set { t with rules := none }
  return t.rules.getD .none

/-- Plans a rule program. The wiring is taken back before a failure is passed on. -/
def rules (p : Planner) (r : RuleProgram) : Translate Prepared := do
  let dataset ← start
  modify fun t => { t with rules := some .none }
  let outcome ← attempt (drawing p (drawRules r))
  let wiring ← takeWiring
  pass outcome
  onGraph wiring.link
  finish dataset

def document (p : Planner) : Document → Translate (List Prepared)
  | .query q => do return [← query p q]
  | .update u => u.operations.mapM (operation p)
  | .rules r => do return [← rules p r]

end Translate

/-! ## Calls -/

/-- What a translator can be asked for. -/
inductive Call where
  | document (d : Document)
  | query (q : Query)
  | operation (op : UpdateOperation)
  | rules (r : RuleProgram)

/-- Answers a call with its plans. -/
def Call.perform (p : Planner) : Call → Translate (List Prepared)
  | .document d => Translate.document p d
  | .query q => do return [← Translate.query p q]
  | .operation op => do return [← Translate.operation p op]
  | .rules r => do return [← Translate.rules p r]

/-- The translator after some calls, whatever their outcomes. -/
def Translator.after (p : Planner) (calls : List Call) (t : Translator) : Translator :=
  calls.foldl (fun t call => ((call.perform p).runOn t).2) t

end QuadAlgebra
