import QuadAlgebra.Semantics.Aggregate
import QuadAlgebra.Store.Basic

/-!
# What operators emit

The rows that each operator emits, from the rows that arrive on its operands. Operators on
solutions are functions on lists of solutions; the rest of this file says which kind of row
each operator expects and which of these functions it applies.
-/

namespace QuadAlgebra

/-! ## Solutions from the store -/

/-- What a plan is evaluated over. -/
structure Source where
  store : Store
  dataset : Dataset

/-- All ways to extend solutions so that each pattern matches some triple. -/
def matchPatterns (patterns : List TriplePattern) (triples : List Triple) (start : Solution) :
    List Solution :=
  patterns.foldl (fun rows p => rows.flatMap fun row => triples.filterMap fun t => p.match? t row)
    [start]

namespace Source

/-- The solutions of a scan, graph by graph if it ranges over graphs. -/
def scan (src : Source) (s : IndexScan) : List Solution :=
  match s.graph with
  | none => matchPatterns s.patterns (src.store.defaultGraph src.dataset).toList ∅
  | some (.term g) =>
    if (src.store.visibleGraphs src.dataset).contains g then
      matchPatterns s.patterns (src.store.triplesIn (some g)) ∅
    else []
  | some (.var v) =>
    (src.store.visibleGraphs src.dataset).toList.flatMap fun g =>
      matchPatterns s.patterns (src.store.triplesIn (some g)) (OrdMap.singleton v g)

/-- One solution per graph of a graph variable; a single empty one otherwise. -/
def probe (src : Source) : Option Item → List Solution
  | some (.var v) =>
    (src.store.visibleGraphs src.dataset).toList.map fun g => OrdMap.singleton v g
  | _ => [∅]

/-- The triples of the default graph about some resources, resource by resource. -/
def describe (src : Source) (resources : List Term) : List Triple :=
  let triples := (src.store.defaultGraph src.dataset).toList
  resources.flatMap fun r => triples.filter (·.subject == r)

end Source

/-! ## Combining solutions -/

/-- The unions of compatible solutions. -/
def joinSolutions (left right : List Solution) : List Solution :=
  left.flatMap fun l => (right.filter l.compatible).map l.merge

/-- The join of all lists; without any list there is no solution. -/
def joinAll : List (List Solution) → List Solution
  | [] => []
  | rows :: rest => rest.foldl joinSolutions rows

/-- The unions with compatible solutions on the right, or the solution itself if there is none. -/
def leftJoinSolutions (left right : List Solution) : List Solution :=
  left.flatMap fun l =>
    let extended := (right.filter l.compatible).map l.merge
    if extended.isEmpty then [l] else extended

/-- The solutions on the left without a compatible solution on the right that shares a
variable. -/
def subtractSolutions (left right : List Solution) : List Solution :=
  left.filter fun l => !right.any fun r => l.compatible r && l.overlaps r

/-- Whether both sides of every pair are bound to the same term. -/
def satisfiesAll (equalities : List (Item × Item)) (row : Solution) : Bool :=
  equalities.all fun e =>
    match row.resolve e.1, row.resolve e.2 with
    | some s, some t => s == t
    | _, _ => false

/-- Binds a variable to the value of an expression, if it has one. -/
def bindValue (target : Variable) (e : Expression) (row : Solution) : Solution :=
  match e.value row [] with
  | some t => row.insert target t
  | none => row

/-! ## Instances of templates -/

/-- A triple whose subject is a resource and whose predicate is an IRI. -/
def Triple.isValid (t : Triple) : Bool :=
  (t.subject.isIri || t.subject.isBlank) && t.predicate.isIri

/-- The term of an item of a template in one row. Blank nodes are renamed by the number of the
row. -/
def Item.instance? (i : Item) (row : Solution) (number : Nat) : Option Term :=
  match i with
  | .term (.blank label) => some (.blank (label ++ "_" ++ number.repr))
  | i => row.resolve i

/-- The triple of three terms, if all are bound and the triple is valid. -/
def validTriple? (subject predicate object : Option Term) : Option Triple := do
  let t : Triple := ⟨← subject, ← predicate, ← object⟩
  if t.isValid then some t else none

/-- The quad that a template makes of a row, if it is valid. -/
def QuadPattern.instance? (p : QuadPattern) (row : Solution) (number : Nat) : Option Quad := do
  let term (i : Item) : Option Term := i.instance? row number
  let t ← validTriple? (term p.triple.subject) (term p.triple.predicate) (term p.triple.object)
  match p.graph with
  | none => return ⟨none, t⟩
  | some i =>
    let g ← row.resolve i
    if g.isIri then return ⟨some g, t⟩ else none

/-- The quads of all templates in all rows, row by row. -/
def constructQuads (template : List QuadPattern) (rows : List Solution) : List Quad :=
  rows.zipIdx.flatMap fun (row, number) => template.filterMap fun p => p.instance? row number

/-- The triple that a rule head derives from a row, if it is valid. -/
def TriplePattern.derive? (p : TriplePattern) (row : Solution) : Option Triple :=
  validTriple? (row.resolve p.subject) (row.resolve p.predicate) (row.resolve p.object)

/-- The fact that a rule head derives from a row, if all arguments are bound. -/
def Atom.derive? (a : Atom) (row : Solution) : Option Fact := do
  return ⟨a.name, ← a.arguments.mapM row.resolve⟩

/-- The solution that a derived fact makes of an atom. -/
def Atom.match? (a : Atom) (f : Fact) : Option Solution :=
  if f.name = a.name ∧ f.arguments.length = a.arguments.length then
    Solution.unifyAll ∅ a.arguments f.arguments
  else none

/-! ## Rows of the expected kind -/

/-- What an operator reads on each operand. -/
abbrev Operands := List (Nat × List Row)

namespace Operands

/-- All rows, operand by operand. -/
def rows (operands : Operands) : List Row := operands.flatMap (·.2)

/-- The rows on one operand. -/
def on (operands : Operands) (k : Nat) : List Row := (operands.lookup k).getD []

/-- The rows on all other operands. -/
def except (operands : Operands) (k : Nat) : List Row :=
  (operands.filter (·.1 != k)).flatMap (·.2)

end Operands

/-- Rows read as one kind; a row of another kind is a fault of the plan. -/
def expectRows {α : Type} (id : OperatorId) (shape : RowShape) (read : Row → Option α)
    (rows : List Row) : Except Error (List α) :=
  rows.mapM fun row =>
    match read row with
    | some a => .ok a
    | none => .error (.internal (.unexpectedRow id shape row))

def expectSolutions (id : OperatorId) (rows : List Row) : Except Error (List Solution) :=
  expectRows id .solutions Row.solution? rows

def Row.quad? : Row → Option Quad
  | .quad q => some q
  | _ => none

def Row.fact? : Row → Option Fact
  | .fact f => some f
  | _ => none

def Row.action? : Row → Option Action
  | .action a => some a
  | _ => none

/-! ## Operators -/

/-- The solutions for the existence patterns of a condition, from place `k` on. -/
def nestedSolutions (nested : List (Nat × Except Error (List Solution))) :
    Nat → List Group → Except Error (List (List Solution))
  | _, [] => .ok []
  | k, _ :: rest => do
    let solutions ←
      match nested.lookup k with
      | some outcome => outcome
      | none => .error (.internal (.missingNestedPlan k))
    return solutions :: (← nestedSolutions nested (k + 1) rest)

namespace Operator

/-- The rows that an operator emits. Its nested plans are given by their solutions. -/
def emit (src : Source) (id : OperatorId) (op : Operator (Except Error (List Solution)))
    (operands : Operands) : Except Error (List Row) :=
  let onSolutions (f : List Solution → List Row) : Except Error (List Row) :=
    (expectSolutions id operands.rows).map f
  let solutions (f : List Solution → List Solution) : Except Error (List Row) :=
    onSolutions fun rows => (f rows).map .solution
  let pairwise (f : List Solution → List Solution → List Solution) : Except Error (List Row) := do
    let left ← expectSolutions id (operands.on 0)
    let right ← expectSolutions id (operands.except 0)
    return (f left right).map .solution
  let quads (f : Quad → Action) : Except Error (List Row) :=
    (expectRows id .quads Row.quad? operands.rows).map fun qs => qs.map (.action ∘ f)
  match op with
  | .root => .ok [.solution ∅]
  | .result _ | .union | .window _ => .ok operands.rows
  | .scan s => solutions fun rows => joinSolutions rows (src.scan s)
  | .probe graph => solutions fun rows => joinSolutions rows (src.probe graph)
  | .join => do
    let lists ← operands.mapM fun o => expectSolutions id o.2
    return (joinAll lists).map .solution
  | .optional => pairwise leftJoinSolutions
  | .minus => pairwise subtractSolutions
  | .filter f => do
    let rows ← expectSolutions id operands.rows
    let found ← nestedSolutions f.nested 0 f.condition.existencePatterns
    return (rows.filter (f.condition.holds found)).map .solution
  | .ruleFilter equalities => solutions fun rows => rows.filter (satisfiesAll equalities)
  | .projection vars => solutions fun rows => rows.map (·.restrict vars)
  | .bind target e => solutions fun rows => rows.map (bindValue target e)
  | .replaceVar r => solutions fun rows => rows.map r.solution
  | .sort keys => solutions (stableSort (compareBy keys))
  | .limit n => .ok (operands.rows.take n)
  | .offset n => .ok (operands.rows.drop n)
  | .distinct | .indexDistinct => .ok (distinctOf operands.rows)
  | .group keys aggregates => solutions (groupSolutions keys aggregates)
  | .construct template => onSolutions fun rows => (constructQuads template rows).map .quad
  | .generate head =>
    onSolutions fun rows => (rows.filterMap head.derive?).map fun t => .quad ⟨none, t⟩
  | .constructAtom head => onSolutions fun rows => (rows.filterMap head.derive?).map .fact
  | .matchTriple p => do
    let quads ← expectRows id .derivedTriples Row.quad? operands.rows
    return (quads.filterMap fun q => p.match? q.triple ∅).map .solution
  | .matchAtom a => do
    let facts ← expectRows id .derivedFacts Row.fact? operands.rows
    return (facts.filterMap a.match?).map .solution
  | .insert => quads .insert
  | .delete => quads .delete
  | .command c => .ok (if operands.rows.isEmpty then [] else [.action (.command c)])
  | .service endpoint _ _ => .error (.unsupported (.remoteCall endpoint))
  | .describe resources =>
    onSolutions fun rows =>
      let found := rows.flatMap fun row => resources.filterMap row.resolve
      (src.describe (distinctOf found)).map fun t => .quad ⟨none, t⟩

end Operator

end QuadAlgebra
