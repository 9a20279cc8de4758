import QuadAlgebra.Plan.Explain
import QuadAlgebra.Semantics.Operator

/-!
# Evaluation of plans

A plan is evaluated in rounds. In a round every operator emits its rows once, producers first; over
a feedback edge it reads what the producer emitted in the round before. Operators on a loop emit
sets, in ascending order, all others bags. Without loops one round is enough; otherwise rounds are
repeated until one changes nothing.
-/

namespace QuadAlgebra

/-- What the results of a plan hand to the caller. -/
structure Evaluation where
  /-- The form of the first result. -/
  form : Option ResultForm
  solutions : List Solution
  /-- Quads without repetitions. -/
  quads : List Quad
  /-- Facts without repetitions. -/
  facts : List Fact
  actions : List Action
  /-- The number of rounds. -/
  iterations : Nat
deriving DecidableEq

namespace Evaluation

/-- The answer to a question whether there are solutions. -/
def ask (e : Evaluation) : Bool := !e.solutions.isEmpty

/-- The triples among the quads, whatever their graphs. -/
def triples (e : Evaluation) : OrdSet Triple := OrdSet.ofList (e.quads.map Quad.triple)

def addQuad (e : Evaluation) (q : Quad) : Evaluation :=
  if e.quads.contains q then e else { e with quads := e.quads ++ [q] }

def addFact (e : Evaluation) (f : Fact) : Evaluation :=
  if e.facts.contains f then e else { e with facts := e.facts ++ [f] }

/-- Adds the derived rows that are wanted. -/
def addDerived (id : OperatorId) (wanted : RuleOutput) (e : Evaluation) (row : Row) :
    Except Error Evaluation :=
  match row with
  | .quad q => .ok (if wanted.triples then e.addQuad q else e)
  | .fact f => .ok (if wanted.predicates then e.addFact f else e)
  | row => .error (.internal (.unexpectedRow id .triplesOrFacts row))

/-- Adds the rows of one result. -/
def addResult (e : Evaluation) (id : OperatorId) (form : ResultForm) (rows : List Row) :
    Except Error Evaluation := do
  let e ←
    match form with
    | .select vars => do
      let found ← expectSolutions id rows
      let shown := if vars.isEmpty then found
        else found.map fun s => s.filter fun v _ => vars.contains v
      pure { e with solutions := e.solutions ++ shown }
    | .ask => do
      pure { e with solutions := e.solutions ++ (← expectSolutions id rows) }
    | .update => do
      pure { e with actions := e.actions ++ (← expectRows id .actions Row.action? rows) }
    | .construct | .describe => rows.foldlM (addDerived id ⟨true, false⟩) e
    | .materialize wanted => rows.foldlM (addDerived id wanted) e
  return { e with form := e.form.or (some form) }

end Evaluation

/-- Rows for operators, latest first. -/
abbrev Assignment := List (OperatorId × List Row)

/-- The limit on rounds, unless another one is given. -/
def defaultIterations : Nat := 1024

/-- How the nested plans of a graph turned out. -/
abbrev Outcome := Except Error Evaluation

namespace Graph

/-- The rows that arrive at an operator. -/
def operandRows {γ : Type} (g : Graph γ) (previous current : Assignment) (id : OperatorId) :
    Operands :=
  (g.operandGroups id).map fun (k, inputs) =>
    (k, inputs.flatMap fun i =>
      ((if i.feedback then previous else current).lookup i.source).getD [])

/-- The rows that an operator emits in a round. -/
def emitAt (g : Graph Outcome) (src : Source) (looped : List OperatorId)
    (previous current : Assignment) (id : OperatorId) : Except Error (List Row) := do
  let op ← g.operator id
  let op := op.withNested (op.nested.map fun e => (e.1, e.2.map Evaluation.solutions))
  let rows ← op.emit src id (g.operandRows previous current id)
  return if looped.contains id then (OrdSet.ofList rows).toList else rows

/-- One round over all operators. -/
def round (g : Graph Outcome) (src : Source) (looped order : List OperatorId)
    (previous : Assignment) : Except Error Assignment :=
  order.foldlM (fun current id => do
    return (id, ← g.emitAt src looped previous current id) :: current) []

/-- Rounds until one changes nothing. The result is the last round and the number of rounds
before it. -/
def rounds (g : Graph Outcome) (src : Source) (looped order : List OperatorId) (limit : Nat) :
    Nat → Nat → Assignment → Except Error (Assignment × Nat)
  | 0, _, _ => .error (.internal (.unconverged limit))
  | left + 1, before, previous => do
    let current ← g.round src looped order previous
    if looped.isEmpty || current == previous then return (current, before)
    else g.rounds src looped order limit left (before + 1) current

/-- Gathers the rows of all results. -/
def collect (g : Graph Outcome) (rows : Assignment) (iterations : Nat) :
    Except Error Evaluation :=
  g.results.foldlM (fun e id =>
    match g.operator? id with
    | some (.result form) => e.addResult id form ((rows.lookup id).getD [])
    | _ => .ok e) ⟨none, [], [], [], [], iterations⟩

/-- The evaluation of a graph whose nested plans have been evaluated. -/
def evaluate (src : Source) (limit : Nat) (g : Graph Outcome) : Outcome := do
  let order ← g.topologicalOrder
  let (rows, before) ← g.rounds src g.loopMembers order limit limit 0 []
  g.collect rows (before + 1)

end Graph

/-- The evaluation of a plan, with at most the given number of rounds. -/
def Plan.evaluate (src : Source) (limit : Nat) (p : Plan) : Outcome :=
  p.fold (Graph.evaluate src limit)

end QuadAlgebra
