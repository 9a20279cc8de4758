import QuadAlgebra.Planning.Path
import QuadAlgebra.Planning.Solutions

/-!
# Plans for graph patterns

The elements of a group are read from left to right and gathered in a segment: plain triples go
into one scan, other elements are partners of a join. An optional pattern, a subtracted pattern and
a binding close the segment: all that came before becomes one side of an operator, which starts a
new segment. Filters belong to the whole group and sit on top of it.
-/

namespace QuadAlgebra

/-! ## Segments -/

/-- The elements of a group since the last one that closed a segment. -/
structure Segment where
  /-- The closed segment in front. -/
  closed : Option DrawInto
  triples : List TriplePattern
  others : List DrawInto
  /-- The variables in scope of all elements read so far. -/
  scope : VarSet

namespace Segment

def start : Segment := ⟨none, [], [], ∅⟩

def addTriple (s : Segment) (p : TriplePattern) : Segment := { s with triples := s.triples ++ [p] }

def addOther (s : Segment) (d : DrawInto) : Segment := { s with others := s.others ++ [d] }

/-- Starts a new segment behind an operator over this one. -/
def close (s : Segment) (d : DrawInto) : Segment := ⟨some d, [], [], s.scope⟩

/-- Plans the join of all that a segment holds. -/
def draw (p : Planner) (graph : Option Item) (s : Segment) : DrawInto := fun c => do
  let scans : List DrawInto :=
    if s.triples.isEmpty then [] else [fun c => c.attachSource (p.scan s.triples graph)]
  match s.closed.toList ++ scans ++ s.others with
  | [] => c.attachSource (.probe graph)
  | [partner] => partner c
  | partners => do
    let join ← c.attach .join
    partners.zipIdx.forM fun (partner, operand) => partner (join.sibling operand)

end Segment

/-! ## Parts of rule bodies -/

/-- A triple of a rule body: stored triples together with derived ones. -/
def ruleTriple (p : Planner) (graph : Option Item) (t : TriplePattern) : DrawInto := fun c => do
  let union ← c.attach .union
  union.attachSource (p.scan [t] graph)
  let matcher ← Draw.add (.matchTriple t)
  (union.sibling 1).feed matcher
  modify fun d =>
    { d with wiring := { d.wiring with tripleMatchers := d.wiring.tripleMatchers ++ [matcher] } }

/-- An atom of a rule body. -/
def ruleAtom (a : Atom) : DrawInto := fun c => do
  let matcher ← Draw.add (.matchAtom a)
  modify fun d =>
    { d with wiring := { d.wiring with atomMatchers := d.wiring.atomMatchers ++ [matcher] } }
  c.feed matcher

/-- A path or triple, as part of a segment. -/
def Segment.addPath (p : Planner) (graph : Option Item) (s : Segment) (path : PathPattern) :
    Segment :=
  match path.path.predicate? with
  | some iri =>
    let t : TriplePattern := ⟨path.subject, .term iri, path.object⟩
    if p.inRules then s.addOther (ruleTriple p graph t) else s.addTriple t
  | none => s.addOther fun c => do c.feed (← path.path.draw ⟨p, graph⟩ path.subject path.object)

/-- Stops unless the query may stand inside a pattern. -/
def Query.requireNestable (q : Query) : Draw Unit := do
  match q.form with
  | .select _ _ => pure ()
  | _ => Draw.malformed .subqueryForm
  if q.dataset.isSome then
    Draw.malformed .subqueryDataset

/-! ## Groups -/

mutual

/-- Plans a group in the given graph. -/
def Group.draw (p : Planner) (graph : Option Item) : Group → DrawInto
  | ⟨elements⟩ => fun c => do
    let c ← drawFilters p graph elements c
    (drawElements p graph elements .start).draw p graph c

/-- Attaches the filters among some elements, the first one on top. -/
def drawFilters (p : Planner) (graph : Option Item) : List Element → Cursor → Draw Cursor
  | [], c => return c
  | .filter e :: rest, c => do
    let c ← p.attachFilter e (e.drawNested p graph) c
    drawFilters p graph rest c
  | _ :: rest, c => drawFilters p graph rest c

/-- Extends a segment by some elements. -/
def drawElements (p : Planner) (graph : Option Item) : List Element → Segment → Segment
  | [], s => s
  | e :: rest, s =>
    let s' := e.draw p graph s
    drawElements p graph rest { s' with scope := s'.scope ∪ e.scope }

/-- Extends a segment by an element. -/
def Element.draw (p : Planner) (graph : Option Item) : Element → Segment → Segment
  | .triple t, s => if p.inRules then s.addOther (ruleTriple p graph t) else s.addTriple t
  | .path path, s => s.addPath p graph path
  | .group g, s => s.addOther (g.draw p graph)
  | .union branches, s =>
    let draws := drawBranches p graph branches
    s.addOther fun c =>
      match draws with
      | [] => c.attachSource (.probe graph)
      | [branch] => branch c
      | several => do
        let union ← c.attach .union
        several.zipIdx.forM fun (branch, operand) => branch (union.sibling operand)
  | .optional g, s =>
    s.close fun c => do
      let node ← c.attach .optional
      s.draw p graph node
      g.draw p graph (node.sibling 1)
  | .minus g, s =>
    s.close fun c => do
      let node ← c.attach .minus
      s.draw p graph node
      g.draw p graph (node.sibling 1)
  | .bind e target, s =>
    s.close fun c => do
      if s.scope.contains target then
        Draw.malformed (.bindTargetInScope target)
      if e.hasExistence then
        Draw.unsupported .existenceInBind
      let node ← c.attach (.bind target e)
      s.draw p graph node
  | .graph name g, s =>
    s.addOther fun c => do
      Planner.require p.config.capabilities.namedGraphs "GRAPH"
      g.draw p (some name) c
  | .filter _, s => s
  | .subSelect q, s =>
    s.addOther fun c => do
      q.requireNestable
      q.drawSolutions p graph c
  | .service endpoint g silent, s =>
    s.addOther fun c => do
      Planner.require p.config.capabilities.federation "SERVICE"
      c.attachSource (.service endpoint g silent)
  | .window w g, s =>
    s.addOther fun c => do
      Planner.require p.config.capabilities.streaming "stream windows"
      g.draw p graph (← c.attach (.window w))
  | .atom a, s =>
    s.addOther fun c => if p.inRules then ruleAtom a c else Draw.malformed .atomOutsideRules

def drawBranches (p : Planner) (graph : Option Item) : List Group → List DrawInto
  | [] => []
  | g :: rest => g.draw p graph :: drawBranches p graph rest

/-- Plans the solutions of a query. -/
def Query.drawSolutions (p : Planner) (graph : Option Item) : Query → DrawInto
  | ⟨form, _, some g, ⟨groupBy, having, orderBy, limit, offset⟩⟩ =>
    p.solutions form ⟨groupBy, having, orderBy, limit, offset⟩ (drawNestedOf p graph having)
      (g.draw p graph)
  | ⟨form, _, none, ⟨groupBy, having, orderBy, limit, offset⟩⟩ =>
    p.solutions form ⟨groupBy, having, orderBy, limit, offset⟩ (drawNestedOf p graph having)
      fun c => c.attachSource (.probe graph)

/-- The plans for the existence patterns of an expression, in order. They are planned outside of
rules. -/
def Expression.drawNested (p : Planner) (graph : Option Item) : Expression → List (Draw Plan)
  | .existence _ g =>
    [nestedPlan (g.scope ∪ Item.vars graph.toList) (g.draw { p with inRules := false } graph)]
  | .binary l _ r => l.drawNested p graph ++ r.drawNested p graph
  | .unary _ e => e.drawNested p graph
  | .call _ args => (drawNestedOf p graph args).flatten
  | _ => []

def drawNestedOf (p : Planner) (graph : Option Item) : List Expression → List (List (Draw Plan))
  | [] => []
  | e :: rest => e.drawNested p graph :: drawNestedOf p graph rest

end

/-- Plans the pattern of a query, or a probe if it has none. -/
def drawPattern (p : Planner) (graph : Option Item) (pattern : Option Group) : DrawInto := fun c =>
  match pattern with
  | some g => g.draw p graph c
  | none => c.attachSource (.probe graph)

end QuadAlgebra
