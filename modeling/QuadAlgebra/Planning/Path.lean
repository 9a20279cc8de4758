import QuadAlgebra.Planning.Draft
import QuadAlgebra.Syntax.Build

/-!
# Plans for paths

A path between two items becomes operators whose last one emits the pairs that the path connects,
as solutions for those items that are variables. Parts of a path meet in interim variables. The
transitive closure is a loop that extends known pairs by one more copy of the path; its edge back
is a feedback edge.
-/

namespace QuadAlgebra

/-- Where a path is planned. -/
structure PathPlanner where
  planner : Planner
  /-- The graph that the path runs in. -/
  graph : Option Item

/-- The planning of a path between two items. -/
abbrev DrawPath := Item → Item → Draw OperatorId

namespace PathPlanner

variable (pp : PathPlanner)

/-! ## Single operators -/

def scan (p : TriplePattern) : Draw OperatorId := Draw.addSource (pp.planner.scan [p] pp.graph)

def probe : Draw OperatorId := Draw.addSource (.probe pp.graph)

/-- Adds an operator that reads another one. -/
def above (input : OperatorId) (op : Operator Plan) : Draw OperatorId := do
  let id ← Draw.add op
  Draw.connect input id 0
  return id

/-- Adds an operator that reads others, each on its own operand. -/
def combine (op : Operator Plan) (inputs : List OperatorId) : Draw OperatorId := do
  let id ← Draw.add op
  inputs.zipIdx.forM fun (input, operand) => Draw.connect input id operand
  return id

def distinct (input : OperatorId) : Draw OperatorId :=
  if pp.planner.config.distinctPaths then above input .distinct else pure input

/-- The variables that a path between two items binds. -/
def endpoints (s o : Item) : VarSet := Item.vars ([s, o] ++ pp.graph.toList)

def project (input : OperatorId) (s o : Item) : Draw OperatorId :=
  above input (.projection (pp.endpoints s o))

/-! ## Paths of length zero -/

/-- All terms in subject or in object position, bound to a variable. -/
def nodes (v : Variable) (asSubject : Bool) : Draw OperatorId := do
  let predicate ← Draw.freshVar
  let other ← Draw.freshVar
  let p : TriplePattern :=
    if asSubject then ⟨.var v, .var predicate, .var other⟩ else ⟨.var other, .var predicate, .var v⟩
  pp.project (← pp.scan p) (.var v) (.var v)

/-- The pairs of equal terms. -/
def zeroLength : DrawPath
  | .var s, .var o => do
    let subjects ← pp.nodes s true
    let objects ← pp.nodes s false
    let all ← pp.distinct (← combine .union [subjects, objects])
    if s = o then return all
    else above all (.bind o (.variable s))
  | .var v, .term t | .term t, .var v => do above (← pp.probe) (.bind v (.constant t))
  | .term s, .term o => do above (← pp.probe) (.ruleFilter [(.term s, .term o)])

/-! ## Negated sets -/

/-- The triples whose predicate is none of the given ones. -/
def negatedPart (excluded : List Term) : DrawPath := fun s o => do
  let any ← Draw.freshVar
  let base ← pp.scan ⟨s, .var any, o⟩
  if excluded.isEmpty then
    pp.project base s o
  else
    let removed ← excluded.mapM fun iri => do
      above (← pp.scan ⟨s, .term iri, o⟩) (.bind any (.constant iri))
    let removed ←
      match removed with
      | [single] => pure single
      | several => combine .union several
    let minus ← combine .minus [base, removed]
    pp.project minus s o

/-- Triples that avoid the excluded predicates, read forward and backward. Without a backward
member only the forward part is there, without a forward one only the backward part. -/
def negatedSet (members : List Excluded) : DrawPath := fun s o => do
  let forward := (members.filter (!·.inverse)).map Excluded.iri
  let backward := (members.filter (·.inverse)).map Excluded.iri
  let output ←
    if backward.isEmpty then pp.negatedPart forward s o
    else if forward.isEmpty then pp.negatedPart backward o s
    else do
      let first ← pp.negatedPart forward s o
      let second ← pp.negatedPart backward o s
      combine .union [first, second]
  pp.distinct output

/-! ## Repetition -/

/-- Connects several copies of a path in a row to one join, from the given operand on, and returns
the item at which the last copy ends. -/
def copies (path : DrawPath) (join : OperatorId) (first : Nat) : Nat → Item → Draw Item
  | 0, start => return start
  | n + 1, start => do
    let next : Item := .var (← Draw.freshVar)
    Draw.connect (← path start next) join first
    copies path join (first + 1) n next

/-- A fixed, positive number of copies in a row. -/
def chain (path : DrawPath) (count : Nat) : DrawPath := fun s o =>
  if count = 1 then path s o
  else do
    let join ← Draw.add .join
    let last ← copies path join 0 (count - 1) s
    Draw.connect (← path last o) join (count - 1)
    pp.project join s o

/-- The loop that computes the transitive closure between two different variables. -/
def loop (path : DrawPath) (s o : Variable) : Draw OperatorId := do
  let base ← path (.var s) (.var o)
  let union ← combine .union [base]
  let known ← above union .distinct
  let step ← Draw.freshVar
  let renamed ← above known (.replaceVar (OrdMap.singleton step o))
  let unequal ← above renamed (.ofCondition (.notEqual (.variable s) (.variable step)))
  let join ← above unequal .join
  Draw.connect (← path (.var step) (.var o)) join 1
  let back ← above join (.projection (pp.endpoints (.var s) (.var o)))
  Draw.onGraph (Graph.connect back union 1 true)
  return known

/-- The transitive closure. Unless the items are two different variables it is computed between
interim variables and restricted afterwards. The first argument bounds how often this happens: a
second time only if an item is itself an interim variable, and never a third time. -/
def closure (path : DrawPath) : Nat → DrawPath
  | 0, s, o => do
    let s' ← (s.var?.map pure).getD Draw.freshVar
    let o' ← (o.var?.map pure).getD Draw.freshVar
    pp.loop path s' o'
  | rounds + 1, s, o => do
    let restrict : Draw OperatorId := do
      let s' ←
        match s with
        | .var v => pure v
        | .term _ => Draw.freshVar
      let o' ←
        match o with
        | .var v => if s = o then Draw.freshVar else pure v
        | .term _ => Draw.freshVar
      let core ← closure path rounds (.var s') (.var o')
      let subjects := if s.isVar then [] else [(Item.var s', s)]
      let objects := if o.isVar && s != o then [] else if o.isVar then [(Item.var o', Item.var s')]
        else [(Item.var o', o)]
      pp.project (← above core (.ruleFilter (subjects ++ objects))) s o
    match s, o with
    | .var v, .var w => if v = w then restrict else pp.loop path v w
    | _, _ => restrict

/-- One or more copies. -/
def oneOrMore (path : DrawPath) : DrawPath := pp.closure path 3

/-- The pairs of length zero together with other pairs. -/
def withZero (path : DrawPath) : DrawPath := fun s o => do
  let none ← pp.zeroLength s o
  let more ← path s o
  pp.distinct (← combine .union [none, more])

/-- Between `min` and `max` copies, where `min` is positive. -/
def positiveRange (path : DrawPath) (min max : Nat) : DrawPath := fun s o => do
  let lengths := (List.range (max + 1 - min)).map (· + min)
  let outputs ← lengths.mapM fun n => pp.chain path n s o
  match outputs with
  | [single] => return single
  | several => pp.distinct (← combine .union several)

/-- Between `min` and `max` copies. -/
def bounded (path : DrawPath) (min max : Nat) : DrawPath := fun s o =>
  if min > max then Draw.malformed (.repetitionBounds min max)
  else if max = 0 then pp.zeroLength s o
  else if min = 0 then pp.withZero (pp.positiveRange path 1 max) s o
  else pp.positiveRange path min max s o

/-- At least `min` copies: some in a row and then a closure. -/
def unbounded (path : DrawPath) (min : Nat) : DrawPath := fun s o =>
  match min with
  | 0 => pp.withZero (pp.oneOrMore path) s o
  | 1 => pp.oneOrMore path s o
  | steps + 1 => do
    let join ← Draw.add .join
    let last ← copies path join 0 steps s
    Draw.connect (← pp.oneOrMore path last o) join steps
    pp.distinct (← pp.project join s o)

end PathPlanner

/-! ## All paths -/

/-- Plans a path between two items. -/
def Path.draw (pp : PathPlanner) : Path → DrawPath
  | .predicate iri => fun s o => pp.scan ⟨s, .term iri, o⟩
  | .inverse p => fun s o => p.draw pp o s
  | .sequence p q => fun s o => do
    let middle : Item := .var (← Draw.freshVar)
    let left ← p.draw pp s middle
    let right ← q.draw pp middle o
    let join ← PathPlanner.combine .join [left, right]
    pp.project join s o
  | .alternative p q => fun s o => do
    let left ← p.draw pp s o
    let right ← q.draw pp s o
    let union ← PathPlanner.combine .union [left, right]
    pp.distinct (← pp.project union s o)
  | .negatedSet members => pp.negatedSet members
  | .repetition p min (some max) => pp.bounded (p.draw pp) min max
  | .repetition p min none => pp.unbounded (p.draw pp) min
  | .oneOrMore p => pp.oneOrMore (p.draw pp)
  | .zeroOrMore p => pp.withZero (pp.oneOrMore (p.draw pp))
  | .zeroOrOne p => pp.withZero (p.draw pp)

end QuadAlgebra
