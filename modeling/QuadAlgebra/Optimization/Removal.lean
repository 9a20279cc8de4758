import QuadAlgebra.Optimization.Matching

/-!
# Rules that remove operators

Scans that are known to be empty, templates without content, heads whose derived rows nobody wants,
and unions, whose work the operand of their consumer does as well: an operand reads all its inputs
together.
-/

namespace QuadAlgebra

namespace PlanRule

variable {γ : Type}

/-! ## Scans and templates -/

/-- Removes a scan that is known to be empty, with all that depends on it. -/
def removeEmptyScan (provesEmpty : IndexScan → Bool) : PlanRule γ where
  name := "RemoveEmptyIndex"
  start := .scan
  match? g id := do
    let scan ← (← g.operator? id).scan?
    if provesEmpty scan then some (.only id) else none
  replace m := do
    let _ ← Reshape.cascade m.root

/-- Removes a template without quads or without consumers. -/
def removeIdleTemplate : PlanRule γ where
  name := "RemoveUnnecessaryConstruct"
  start := .construct
  match? g id :=
    match g.operator? id with
    | some (.construct template) =>
      if template.isEmpty || (g.succeeding id).isEmpty then some (.only id) else none
    | _ => none
  replace m := do
    let _ ← Reshape.cascade m.root

/-! ## Heads -/

/-- The results that read an operator and discard what it derives. -/
def discarding (g : Graph γ) (id : OperatorId) (wanted : RuleOutput → Bool) : List OperatorId :=
  ((g.succeeding id).filter fun e =>
    match g.operator? e.target with
    | some (.result (.materialize output)) => !wanted output
    | _ => false).map Edge.target

/-- Cuts a head from the results that discard what it derives, and removes it if nothing else reads
it. -/
def removeIdleHead (name : String) (kind : Kind) (wanted : RuleOutput → Bool) : PlanRule γ where
  name := name
  start := kind
  match? g id :=
    let results := discarding g id wanted
    if g.kind? id != some kind || (results.isEmpty && !(g.succeeding id).isEmpty) then none
    else some ((Match.only id).bindAll .discarding results)
  replace m := do
    (m.all .discarding).forM fun result => Reshape.disconnect m.root result
    if (← Reshape.look (·.succeeding m.root)).isEmpty then
      let _ ← Reshape.cascade m.root

def removeIdleAtomHead : PlanRule γ :=
  removeIdleHead "RemoveUnnecessaryPredicate" .constructAtom RuleOutput.predicates

def removeIdleTripleHead : PlanRule γ :=
  removeIdleHead "RemoveUnnecessaryGenerate" .generate RuleOutput.triples

/-! ## Unions -/

/-- Connects the inputs of a union to its consumers and removes it. An edge becomes a feedback edge
if one of the edges that it replaces was. -/
def spliceUnion : PlanRule γ where
  name := "RemoveUnion"
  start := .union
  match? g id :=
    let inputs := g.inputs id
    let outputs := g.succeeding id
    let sources := Graph.sourcesOf inputs
    if inputs.isEmpty || outputs.isEmpty then some (.only id)
    else if !Graph.sourcesDiffer inputs ||
        outputs.any fun e => sources.contains e.target || e.target == id then none
    else some ((Match.only id).bindAll .input sources)
  replace m := do
    if (m.all .input).isEmpty then
      let _ ← Reshape.cascade m.root
    else
      let inputs ← Reshape.look (·.inputs m.root)
      let outputs ← Reshape.look (·.succeeding m.root)
      inputs.forM fun i => outputs.forM fun e =>
        Reshape.connect i.source e.target e.operand (i.feedback || e.feedback)
      Reshape.remove m.root

end PlanRule

end QuadAlgebra
