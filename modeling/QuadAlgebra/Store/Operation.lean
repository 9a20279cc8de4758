import QuadAlgebra.Store.Basic

/-!
# Operations on stores

The ways in which the owner of a store changes it, and what each of them reports. An operation that
fails keeps what it has done until then.
-/

namespace QuadAlgebra

inductive StoreOperation where
  | insert (q : Quad)
  /-- Inserts into the default graph. -/
  | insertTriple (t : Triple)
  | extend (quads : List Quad)
  | remove (q : Quad)
  | createGraph (g : Term)
  | clear (target : GraphTarget)
  | dropGraphs (target : GraphTarget)
  | apply (actions : List Action)
  /-- Replaces the store by the one that a text describes. -/
  | load (text : String)

/-- What an operation tells its caller. -/
inductive StoreReport where
  | done
  /-- Whether there are more or fewer members than before. -/
  | changed (yes : Bool)
  | count (n : Nat)
deriving DecidableEq

namespace StoreOperation

/-- Changes a store and reports whether its number of quads changes. -/
def alter (f : Store → Store) : Edit Store StoreReport := do
  let s ← get
  set (f s)
  return .changed (s.size != (f s).size)

/-- Changes a store and reports how many quads fewer it has. -/
def reduce (f : Store → Store) : Edit Store StoreReport := do
  let s ← get
  set (f s)
  return .count (s.size - (f s).size)

def perform : StoreOperation → Edit Store StoreReport
  | .insert q => alter (·.insert q)
  | .insertTriple t => alter (·.insert ⟨none, t⟩)
  | .extend quads => do
    modify fun s => quads.foldl Store.insert s
    return .done
  | .remove q => alter (·.remove q)
  | .createGraph g => do
    let s ← get
    set (s.createGraph g)
    return .changed (s.graphs.size != (s.createGraph g).graphs.size)
  | .clear target => reduce (·.clear target)
  | .dropGraphs target => reduce (·.dropGraphs target)
  | .apply actions => do return .count (← Store.apply actions)
  | .load text => do
    match Store.ofJsonText text with
    | .ok s => set s
    | .error e => throw e
    return .done

end StoreOperation

namespace Store

/-- The store that an operation leaves, whether it fails or not. -/
def performed (s : Store) (op : StoreOperation) : Store := (op.perform.runOn s).2

/-- The store that some operations, one after the other, make of the empty one. -/
def performedAll (ops : List StoreOperation) : Store := ops.foldl performed empty

end Store

end QuadAlgebra
