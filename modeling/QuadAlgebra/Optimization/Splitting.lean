import QuadAlgebra.Optimization.Matching

/-!
# Rules that split operators

Heads and matchers of rule programs that several operators read are copied, so that each copy has
one consumer. That lets a head be fitted to the matcher behind it.
-/

namespace QuadAlgebra

namespace PlanRule

variable {γ : Type}

/-- Copies an operator for one of its consumers and moves the edges to that consumer. -/
def moveConsumer (shared : OperatorId) (op : Operator γ) (inputs : List Input)
    (target : OperatorId) : Reshape γ Unit := do
  let edges := (← Reshape.look (·.succeeding shared)).filter (·.target == target)
  let copy ← Reshape.add op
  inputs.forM fun i => Reshape.connect i.source copy i.operand i.feedback
  Reshape.disconnect shared target
  Reshape.feedAll copy edges

/-- Gives every consumer but the first a copy of its own. All copies read what the operator
reads. -/
def split (name : String) (kind : Kind) : PlanRule γ where
  name := name
  start := kind
  match? g id :=
    if g.kind? id != some kind then none
    else
      match distinctOf ((g.succeeding id).map Edge.target) with
      | [] | [_] => none
      | _ :: moved => some ((Match.only id).bindAll .moved moved)
  replace m := do
    let op ← Reshape.operator m.root
    let inputs ← Reshape.look (·.inputs m.root)
    (m.all .moved).forM (moveConsumer m.root op inputs)

def splitTripleHead : PlanRule γ := split "SplitGenerate" .generate

def splitAtomMatcher : PlanRule γ := split "SplitPredicatePattern" .matchAtom

def splitAtomHead : PlanRule γ := split "SplitConstructPredicate" .constructAtom

end PlanRule

end QuadAlgebra
