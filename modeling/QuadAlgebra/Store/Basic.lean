import QuadAlgebra.Error
import QuadAlgebra.Json.Reader
import QuadAlgebra.Term.Json

/-!
# Quad stores

A store holds quads and knows its named graphs, empty ones included. A dataset selects the graphs
that a query sees. Changes are applied in one go: all deletions first, then the rest in order.
-/

namespace QuadAlgebra

/-- The graphs that a plan reads. -/
structure Dataset where
  /-- The graphs merged into the default graph; without any it is the store's own. -/
  defaultGraphs : OrdSet Term
  /-- The graphs that a graph variable ranges over; without any it ranges over all. -/
  namedGraphs : OrdSet Term
deriving DecidableEq, Inhabited

namespace Dataset

def empty : Dataset := ⟨∅, ∅⟩

def ofClause (c : DatasetClause) : Dataset :=
  ⟨OrdSet.ofList c.defaultGraphs, OrdSet.ofList c.namedGraphs⟩

end Dataset

/-- Whether a graph is among those that a command acts on. -/
def GraphTarget.covers : GraphTarget → Option Term → Bool
  | .all, _ => true
  | .default, none => true
  | .allNamed, some _ => true
  | .named t, some g => t == g
  | _, _ => false

/-- Quads, and the names of all graphs that are known. -/
structure Store where
  quads : OrdSet Quad
  graphs : OrdSet Term
deriving DecidableEq, Inhabited

namespace Store

def empty : Store := ⟨∅, ∅⟩

def size (s : Store) : Nat := s.quads.size

def isEmpty (s : Store) : Bool := s.quads.isEmpty

def contains (s : Store) (q : Quad) : Bool := s.quads.contains q

/-! ## Single quads and graphs -/

def insert (s : Store) (q : Quad) : Store :=
  ⟨s.quads.insert q,
    match q.graph with
    | some g => s.graphs.insert g
    | none => s.graphs⟩

def ofList (quads : List Quad) : Store := quads.foldl insert empty

def remove (s : Store) (q : Quad) : Store := { s with quads := s.quads.erase q }

def createGraph (s : Store) (g : Term) : Store := { s with graphs := s.graphs.insert g }

/-! ## Reading -/

/-- The triples of a named graph, or of the store's own default graph. -/
def triplesIn (s : Store) (graph : Option Term) : List Triple :=
  (s.quads.toList.filter (·.graph == graph)).map Quad.triple

/-- The default graph of a dataset. -/
def defaultGraph (s : Store) (d : Dataset) : OrdSet Triple :=
  if d.defaultGraphs.isEmpty then OrdSet.ofList (s.triplesIn none)
  else OrdSet.ofList (d.defaultGraphs.toList.flatMap fun g => s.triplesIn (some g))

/-- The named graphs of a dataset. -/
def visibleGraphs (s : Store) (d : Dataset) : OrdSet Term :=
  if d.namedGraphs.isEmpty then s.graphs else d.namedGraphs

/-- Whether a triple of any graph has the given terms. -/
def hasMatch (s : Store) (subject predicate object : Option Term) : Bool :=
  s.quads.toList.any fun q =>
    subject.all (· == q.triple.subject) && predicate.all (· == q.triple.predicate) &&
      object.all (· == q.triple.object)

/-! ## Whole graphs -/

/-- Removes the quads of the targeted graphs. -/
def clear (s : Store) (t : GraphTarget) : Store :=
  { s with quads := s.quads.filter fun q => !t.covers q.graph }

/-- Removes the quads of the targeted graphs and forgets the named ones. -/
def dropGraphs (s : Store) (t : GraphTarget) : Store :=
  let cleared := s.clear t
  match t with
  | .named g => { cleared with graphs := cleared.graphs.erase g }
  | .allNamed | .all => { cleared with graphs := ∅ }
  | .default => cleared

/-! ## Changes -/

/-- Carries out a command and returns the number of quads that it removed. -/
def runCommand : GraphCommand → Edit Store Nat
  | .clear target _ => do
    let s ← get
    set (s.clear target)
    return s.size - (s.clear target).size
  | .drop target silent => do
    let s ← get
    if let .named g := target then
      if !s.graphs.contains g && !silent then
        throw (.malformed (.missingGraph g))
    set (s.dropGraphs target)
    return s.size - (s.dropGraphs target).size
  | .create g silent => do
    let s ← get
    set (s.createGraph g)
    if s.graphs.contains g && !silent then
      throw (.malformed (.existingGraph g))
    return 0
  | .load source _ silent => do
    if !silent then
      throw (.unsupported (.load source))
    return 0

/-- Carries out an action that is no deletion, and returns the number of quads that it added or
removed. -/
def runAction : Action → Edit Store Nat
  | .insert q => do
    let s ← get
    set (s.insert q)
    return if s.contains q then 0 else 1
  | .delete _ => return 0
  | .command c => runCommand c

/-- The quads that some actions delete. -/
def deletions (actions : List Action) : List Quad :=
  actions.filterMap fun
    | .delete q => some q
    | _ => none

/-- Applies actions, deletions first, and returns the number of quads added and removed. A failure
keeps what was done before it. -/
def apply (actions : List Action) : Edit Store Nat := do
  let before ← get
  let pruned := (deletions actions).foldl remove before
  set pruned
  actions.foldlM (fun changed a => do return changed + (← runAction a)) (before.size - pruned.size)

/-! ## JSON -/

/-- The store of an array of quads in JSON. -/
def ofJsonText (text : String) : Except Error Store :=
  match (Json.read? text).bind (Json.list? Quad.ofJson?) with
  | some quads => .ok (ofList quads)
  | none => .error (.malformed .unreadableQuads)

end Store

end QuadAlgebra
