import QuadAlgebra.Planning.Bindings
import QuadAlgebra.Planning.Draft
import QuadAlgebra.Syntax.Equality

/-!
# Plans for selections and modifiers

What stands between the pattern of a query and its result: grouping, conditions on groups, computed
variables, order, projection, removal of repetitions and a window of the sequence. Aggregates are
computed where solutions are grouped; elsewhere interim variables take their places.
-/

namespace QuadAlgebra

/-- The planning of something that feeds a cursor. -/
abbrev DrawInto := Cursor → Draw Unit

namespace Planner

/-- Attaches a filter. The plans for its existence patterns are given in order. -/
def attachFilter (p : Planner) (condition : Expression) (nested : List (Draw Plan)) (c : Cursor) :
    Draw Cursor := do
  let plans ← nested.mapM id
  if condition.hasAggregate then
    Draw.malformed .aggregateInFilter
  let d ← get
  set { d with nextSlot := d.nextSlot + 1 }
  c.attach (.filter ⟨condition, plans.zipIdx.map fun (plan, place) => (place, plan),
    some ⟨p.evaluator, d.nextSlot⟩⟩)

end Planner

/-- The plan for an existence pattern: a selection of the given variables with a graph of its
own. Interim variables and slots are numbered on. -/
def nestedPlan (vars : VarSet) (body : DrawInto) : Draw Plan := ExceptT.mk do
  let outer ← StateT.get
  let drawing : Draw Unit := do
    let result ← Draw.add (.result (.select vars.toList))
    body ⟨result, 0⟩
  let (outcome, inner) := drawing.runOn { outer with graph := .empty, wiring := .none }
  match outcome with
  | .ok () =>
    set { outer with nextVar := inner.nextVar, nextSlot := inner.nextSlot }
    let (finished, graph) := Graph.updateVariables.runOn inner.graph
    return finished.map fun _ => ⟨graph⟩
  | .error e =>
    set { outer with nextSlot := inner.nextSlot }
    return .error e

/-! ## Aggregates -/

/-- Aggregates with the interim variables that stand for them. -/
structure Extraction where
  aggregates : List (Variable × Aggregate)
  nextVar : Nat

/-- The variable of an aggregate; equal aggregates share one. -/
def Aggregate.extract (a : Aggregate) : StateM Extraction Expression := do
  let s ← get
  match s.aggregates.find? (·.2 == a) with
  | some (v, _) => return .variable v
  | none =>
    let v := Variable.interim s.nextVar
    set (⟨s.aggregates ++ [(v, a)], s.nextVar + 1⟩ : Extraction)
    return .variable v

def Expression.extract (e : Expression) : StateM Extraction Expression :=
  e.mapAggregates Aggregate.extract

/-- The expressions of a query that stand above its groups. -/
structure Outputs where
  /-- Nothing if all variables are selected. -/
  items : Option (List SelectItem)
  having : List Expression
  orderBy : List SortKey

namespace Outputs

def extractItem : SelectItem → StateM Extraction SelectItem
  | .variable v => return .variable v
  | .computed e target => do return .computed (← e.extract) target

/-- Replaces the aggregates of all expressions, in order. -/
def extract (o : Outputs) : StateM Extraction Outputs := do
  let items ←
    match o.items with
    | some items => do pure (some (← items.mapM extractItem))
    | none => pure none
  let having ← o.having.mapM Expression.extract
  let orderBy ← o.orderBy.mapM fun k => do return ⟨← k.expression.extract, k.direction⟩
  return ⟨items, having, orderBy⟩

/-- The computed variables of the selection. -/
def bindings (o : Outputs) : List Binding :=
  (o.items.getD []).filterMap fun
    | .computed e target => some ⟨target, e⟩
    | .variable _ => none

/-- The variables that are selected as they are. -/
def plain (o : Outputs) : List Variable :=
  (o.items.getD []).filterMap fun
    | .variable v => some v
    | .computed _ _ => none

end Outputs

/-! ## Grouping -/

/-- The key variable of a condition, and its binding if it is computed. -/
def GroupKey.draw : GroupKey → Draw (Variable × List Binding)
  | .variable v => return (v, [])
  | .computed e (some target) => return (target, [⟨target, e⟩])
  | .computed e none => do
    let v ← Draw.freshVar
    return (v, [⟨v, e⟩])

/-- Checks that a grouped query selects only what grouping keeps: keys, aggregates and computed
variables over these. -/
def checkGrouping (o : Outputs) (selectsAll : Bool) (keys : List Variable)
    (aggregates : List Variable) : Draw Unit := do
  if selectsAll then
    Draw.malformed .groupedWildcard
  if let some v := o.plain.find? fun v => !keys.contains v then
    Draw.malformed (.notGrouped v)
  let available := OrdSet.ofList (keys ++ aggregates ++ o.bindings.map Binding.target)
  o.bindings.forM fun b => do
    if let some v := b.expression.vars.toList.find? fun v => !available.contains v then
      Draw.malformed (.notGroupedIn v b.target)

/-! ## Solutions of a query -/

namespace Planner

/-- Operators that bind computed variables, the last one on top. -/
def bindOperators (bindings : List Binding) : List (Operator Plan) :=
  bindings.reverse.map fun b => .bind b.target b.expression

/-- Plans the solutions of a query below a cursor. The plans for the conditions on groups and for
the pattern are given. -/
def solutions (p : Planner) (form : QueryForm) (m : Modifiers)
    (nested : List (List (Draw Plan))) (pattern : DrawInto) : DrawInto := fun c => do
  let (selecting, repeated, items) :=
    match form with
    | .select d (.explicit items) => (true, d, some items)
    | .select d .wildcard => (true, d, none)
    | _ => (false, .all, none)
  let d ← get
  let (o, extraction) := (Outputs.extract ⟨items, m.having, m.orderBy⟩).run ⟨[], d.nextVar⟩
  set { d with nextVar := extraction.nextVar }
  let grouped ← m.groupBy.mapM GroupKey.draw
  let keys := grouped.map (·.1)
  let aggregates := extraction.aggregates
  let grouping := !m.groupBy.isEmpty || !aggregates.isEmpty
  if grouping then
    checkGrouping o (selecting && o.items.isNone) keys (aggregates.map (·.1))
  let computed ← liftExcept (Binding.sort o.bindings)
  let computedKeys ← liftExcept (Binding.sort (grouped.flatMap (·.2)))
  let c ← c.attachAll <|
    (m.limit.map .limit).toList ++ (m.offset.map .offset).toList ++
    (if repeated = .all then [] else [.distinct]) ++
    (o.items.map fun items => .projection (OrdSet.ofList (items.map SelectItem.target))).toList ++
    (if o.orderBy.isEmpty then [] else [.sort o.orderBy]) ++ bindOperators computed
  let c ← (o.having.zip nested).foldlM (fun c (condition, plans) =>
    p.attachFilter condition plans c) c
  let c ← c.attachAll <|
    (if grouping then [.group keys aggregates] else []) ++ bindOperators computedKeys
  pattern c
where
  liftExcept {α : Type} (outcome : Except Error α) : Draw α := ExceptT.mk (pure outcome)

end Planner

end QuadAlgebra
