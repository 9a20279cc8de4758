import QuadAlgebra.Ordered.List
import QuadAlgebra.Semantics.Expression
import QuadAlgebra.Syntax.Equality

/-!
# Aggregates and groups

The value of an aggregate over the solutions of a group, the grouping of solutions by key
variables, and the order of solutions by a list of keys.
-/

namespace QuadAlgebra

/-! ## Aggregates -/

/-- The sum of the numbers, from the left; without a value if one of the terms is no number. -/
def sumOf (terms : List Term) : Option Float :=
  terms.foldlM (fun total t => t.number?.map (total + ·)) (-0.0)

/-- The first of the least terms. -/
def leastOf : List Term → Option Term
  | [] => none
  | t :: rest => some (rest.foldl (fun best t => if t.order best == .lt then t else best) t)

/-- The last of the greatest terms. -/
def greatestOf : List Term → Option Term
  | [] => none
  | t :: rest => some (rest.foldl (fun best t => if best.order t == .gt then best else t) t)

/-- The value of an aggregate function over terms. -/
def AggregateFunction.apply (f : AggregateFunction) (terms : List Term) : Option Term :=
  match f with
  | .count => some (.integer terms.length)
  | .sum => (sumOf terms).map fun total => .ofNumber total (terms.all Term.isInteger)
  | .avg =>
    if terms.isEmpty then some (.integer 0)
    else (sumOf terms).map fun total => .double (total / Float.ofNat terms.length)
  | .min => leastOf terms
  | .max => greatestOf terms
  | .sample => terms.head?
  | .groupConcat separator =>
    some (.simple ((separator.getD " ").intercalate (terms.map Term.lexical)))

/-- The value of an aggregate over solutions. Without an argument it counts solutions: all of them
in a plain count, different ones otherwise. -/
def Aggregate.value (a : Aggregate) (rows : List Solution) : Option Term :=
  match a.argument with
  | none =>
    let plain := a.function == .count && !a.distinct
    some (.integer (if plain then rows.length else (distinctOf rows).length))
  | some e =>
    let terms := rows.filterMap fun row => e.value row []
    a.function.apply (if a.distinct then distinctOf terms else terms)

/-! ## Groups -/

/-- The values of the key variables in a solution. -/
def groupKey (keys : List Variable) (row : Solution) : List (Option Term) := keys.map row.get?

/-- The solution of one group: its key, and the aggregates that have a value. -/
def groupSolution (keys : List Variable) (aggregates : List (Variable × Aggregate))
    (key : List (Option Term)) (rows : List Solution) : Solution :=
  let bind (s : Solution) (e : Variable × Option Term) : Solution :=
    match e.2 with
    | some t => s.insert e.1 t
    | none => s
  let keyed := (keys.zip key).foldl bind ∅
  (aggregates.map fun a => (a.1, a.2.value rows)).foldl bind keyed

/-- One solution per group, in the order in which the keys first occur. Without key variables
there is always one group. -/
def groupSolutions (keys : List Variable) (aggregates : List (Variable × Aggregate))
    (rows : List Solution) : List Solution :=
  let found := distinctOf (rows.map (groupKey keys))
  let groups := if rows.isEmpty && keys.isEmpty then [[]] else found
  groups.map fun key => groupSolution keys aggregates key (rows.filter (groupKey keys · == key))

/-! ## Order -/

/-- The order of two solutions by the first key that tells them apart. -/
def compareBy (keys : List SortKey) (s t : Solution) : Ordering :=
  keys.foldl (fun o key =>
    o.then
      (let here := orderOptional (key.expression.value s []) (key.expression.value t [])
       match key.direction with
       | .ascending => here
       | .descending => here.swap)) .eq

end QuadAlgebra
