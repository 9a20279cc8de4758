import QuadAlgebra.Optimization.Matching

/-!
# Rules about filters

A filter that only asks whether terms are equal need not evaluate expressions. A filter above a
join, a union or an optional pattern is moved below it, to where all its variables are certain
to be bound; a filter that reads several inputs gets a copy for each.
-/

namespace QuadAlgebra

/-! ## Equalities of terms -/

namespace Expression

def item? : Expression → Option Item
  | .variable v => some (.var v)
  | .constant t => some (.term t)
  | _ => none

/-- An equality between two items, if both sides are items. -/
def equality? (l r : Expression) : Option (Item × Item) := do
  return (← l.item?, ← r.item?)

/-- The equalities of terms that an expression is a conjunction of. Equality of values counts if one
side is an IRI, as it then is equality of terms. -/
def equalities? : Expression → Option (List (Item × Item))
  | .binary l .and r => do return (← l.equalities?) ++ (← r.equalities?)
  | .binary l .sameTerm r => do return [← equality? l r]
  | .binary l .equal r => do
    let e ← equality? l r
    if e.1.term?.any Term.isIri || e.2.term?.any Term.isIri then some [e] else none
  | .call name [l, r] =>
    if name.toList.map Char.toLower = "sameterm".toList then do return [← equality? l r] else none
  | _ => none

end Expression

namespace PlanRule

variable {γ : Type}

def specializeFilter : PlanRule γ where
  name := "ReplaceFilterWithRuleFilter"
  start := .filter
  match? g id :=
    match g.operator? id with
    | some (.filter f) =>
      if f.nested.isEmpty && f.condition.equalities?.isSome then some (.only id) else none
    | _ => none
  replace m := do
    let equalities? :=
      match ← Reshape.operator m.root with
      | .filter f => f.condition.equalities?
      | _ => none
    match equalities? with
    | some equalities => Reshape.replaceOperator m.root (.ruleFilter equalities)
    | none =>
      Reshape.badMatch "ReplaceFilterWithRuleFilter" "filter is not a conjunction of equalities"

/-! ## Where a filter can go -/

/-- Whether all of some inputs are read by one operator only, and certainly bind the variables. -/
def covers (g : Graph γ) (consumer : OperatorId) (vars : VarSet) (inputs : List Input) : Bool :=
  inputs.all fun i => g.feedsOnly i consumer &&
    (match g.node? i.source with
      | some n => vars.isSubset n.certain
      | none => true)

/-- The producers below an operator on whose edges a filter over the variables does the same work as
above the operator. -/
def pushTargets (g : Graph γ) (below : OperatorId) (vars : VarSet) : List OperatorId :=
  let inputs := g.inputs below
  if !Graph.sourcesDiffer inputs then []
  else
    match g.operator? below with
    | some .join =>
      (((g.operandGroups below).map (·.2)).filter (covers g below vars)).flatMap fun group =>
        group.map Input.source
    | some .union =>
      if inputs.all (g.feedsOnly · below) then Graph.sourcesOf inputs else []
    | some .optional =>
      let outer := inputs.filter (·.operand == 0)
      if covers g below vars outer then outer.map Input.source else []
    | _ => []

/-- The match of a filter with several inputs, all on its operand. -/
def matchMembers (g : Graph γ) (id : OperatorId) : Option Match :=
  let inputs := g.inputs id
  if Graph.sourcesDiffer inputs && inputs.all (fun i => !i.feedback && i.operand == 0) then
    some ((Match.only id).bindAll .member (inputs.map Input.source))
  else none

def matchPush (kind : Kind) (g : Graph γ) (id : OperatorId) : Option Match := do
  let op ← g.operator? id
  if op.kind != kind || !op.nested.isEmpty then none
  else if (g.inputs id).length > 1 then matchMembers g id
  else
    let i ← g.singleInput? id
    let targets := pushTargets g i.source op.reads
    if !g.feedsOnly i id || targets.isEmpty then none
    else some (((Match.only id).bind .below i.source).bindAll .target targets)

/-! ## Moving a filter -/

/-- Replaces a filter by one copy per input. -/
def distribute (id : OperatorId) (members : List OperatorId) : Reshape γ Unit := do
  let op ← Reshape.operator id
  let outputs ← Reshape.look (·.succeeding id)
  Reshape.remove id
  members.forM fun member => do
    let copy ← Reshape.above member op
    Reshape.feedAll copy outputs

/-- Puts copies of a filter on the edges from the targets to the operator below, and removes the
filter. -/
def lower (id below : OperatorId) (targets : List OperatorId) : Reshape γ Unit := do
  let op ← Reshape.operator id
  let inputs := (← Reshape.look (·.inputs below)).filter fun i => targets.contains i.source
  inputs.forM fun i => do
    let _ ← Reshape.insertBetween i below op
  let outputs ← Reshape.look (·.succeeding id)
  Reshape.remove id
  Reshape.feedAll below outputs

/-- Moves a filter below a join, a union or an optional pattern, or splits it over its inputs. -/
def push (name : String) (kind : Kind) : PlanRule γ where
  name := name
  start := kind
  match? := matchPush kind
  replace m := do
    if !(m.all .member).isEmpty then distribute m.root (m.all .member)
    else
      match m.first? .below with
      | some below => lower m.root below (m.all .target)
      | none => Reshape.badMatch "push" "match without the operator below the filter"

def pushFilter : PlanRule γ := push "PushFilter" .filter

def pushRuleFilter : PlanRule γ := push "PushRuleFilter" .ruleFilter

end PlanRule

end QuadAlgebra
