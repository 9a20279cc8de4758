import QuadAlgebra.Plan.Traversal

/-!
# Values along a graph

A value for every operator is computed from the values of the operators that it reads, producers
first. The variable sets are such values: the variables that every solution of an operator binds,
and those that some solution may bind.
-/

namespace QuadAlgebra

/-! ## Propagation -/

namespace Graph

variable {γ α : Type}

/-- One value per operator, in topological order. An operator sees the values of those inputs whose
producers come before it; that may leave out producers over feedback edges. -/
def propagate (g : Graph γ) (compute : OperatorId → List (Input × α) → α) :
    Except Error (List (OperatorId × α)) := do
  let order ← g.topologicalOrder
  let values := order.foldl (fun values id =>
    let inputs := (g.inputs id).filterMap fun i => (values.lookup i.source).map fun v => (i, v)
    (id, compute id inputs) :: values) []
  return values.reverse

end Graph

/-! ## Variable sets -/

/-- What is known about the variables of some solutions. -/
structure VarBounds where
  /-- Bound in every solution. -/
  certain : VarSet
  /-- Bound in some solution, at most. -/
  possible : VarSet
deriving DecidableEq, Inhabited

namespace VarBounds

def none : VarBounds := ⟨∅, ∅⟩

/-- Exactly these variables are bound. -/
def exactly (vars : VarSet) : VarBounds := ⟨vars, vars⟩

/-- Solutions from either of two sources. -/
def either (a b : VarBounds) : VarBounds := ⟨a.certain ∩ b.certain, a.possible ∪ b.possible⟩

/-- Unions of solutions from both of two sources. -/
def both (a b : VarBounds) : VarBounds := ⟨a.certain ∪ b.certain, a.possible ∪ b.possible⟩

/-- Solutions from any of some sources. -/
def any : List VarBounds → VarBounds
  | [] => none
  | b :: rest => rest.foldl either b

def mapSets (f : VarSet → VarSet) (b : VarBounds) : VarBounds := ⟨f b.certain, f b.possible⟩

end VarBounds

/-- Whether an expression has a value in every solution that binds the given variables. -/
def Expression.isTotal (certain : VarSet) : Expression → Bool
  | .constant _ | .bound _ => true
  | .variable v => certain.contains v
  | _ => false

/-- The bounds of each operand, by operand. Feedback inputs count only if there are no others. -/
def operandBounds (inputs : List (Input × VarBounds)) : List (Nat × VarBounds) :=
  let forward := inputs.filter (!·.1.feedback)
  let inputs := if forward.isEmpty then inputs else forward
  let operands := stableSort compare (distinctOf (inputs.map (·.1.operand)))
  operands.map fun k => (k, .any ((inputs.filter (·.1.operand == k)).map (·.2)))

namespace Operator

variable {γ : Type}

/-- The bounds of what an operator emits, from the bounds of its operands. -/
def bounds (op : Operator γ) (operands : List (Nat × VarBounds)) : VarBounds :=
  let operand (k : Nat) : VarBounds := (operands.lookup k).getD .none
  let merged := VarBounds.any (operands.map (·.2))
  match op with
  | .probe graph => .exactly (Item.vars graph.toList)
  | .root | .construct _ | .generate _ | .constructAtom _ | .insert | .delete | .command _
  | .describe _ => .none
  | .scan s => .exactly s.vars
  | .matchTriple p => .exactly p.vars
  | .matchAtom a => .exactly a.vars
  | .service endpoint pattern _ => .exactly (pattern.scope ∪ Item.vars [endpoint])
  | .join => (operands.map (·.2)).foldl .both .none
  | .optional => ⟨(operand 0).certain, (operand 0).possible ∪ (operand 1).possible⟩
  | .minus => operand 0
  | .union | .result _ => merged
  | .projection vars => merged.mapSets (· ∩ vars)
  | .bind target e =>
    ⟨if e.isTotal merged.certain then merged.certain.insert target else merged.certain,
      merged.possible.insert target⟩
  | .replaceVar r => merged.mapSets r.vars
  | .group keys aggregates =>
    ⟨OrdSet.ofList (keys.filter merged.certain.contains),
      OrdSet.ofList (keys ++ aggregates.map (·.1))⟩
  | .filter _ | .ruleFilter _ | .sort _ | .limit _ | .offset _ | .distinct | .indexDistinct
  | .window _ => merged

end Operator

namespace Graph

variable {γ : Type}

/-- The bounds of every operator. -/
def bounds (g : Graph γ) : Except Error (List (OperatorId × VarBounds)) :=
  g.propagate fun id inputs =>
    match g.operator? id with
    | some op => op.bounds (operandBounds inputs)
    | none => .none

/-- Stores the bounds of every operator with it. -/
def updateVariables : Edit (Graph γ) Unit := do
  let g ← get
  match g.bounds with
  | .ok values =>
    set (values.foldl (fun h (id, b) => h.mapNode id fun n =>
      { n with certain := b.certain, possible := b.possible }) g)
  | .error e => throw e

end Graph

end QuadAlgebra
