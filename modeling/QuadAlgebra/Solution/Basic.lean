import QuadAlgebra.Term.Basic

/-!
# Solutions

A solution gives terms to some variables. Two solutions are compatible when they agree on the
variables they share; then their union is a solution. Matching a pattern against a triple extends
a solution, or fails.
-/

namespace QuadAlgebra

/-- Terms for some variables. -/
abbrev Solution := OrdMap Variable Term

namespace Solution

/-- The term of an item under a solution; an unbound variable has none. -/
def resolve (s : Solution) : Item → Option Term
  | .var v => s.get? v
  | .term t => some t

/-- Extends a solution so that the item denotes the term, if it does not denote another. -/
def unify (s : Solution) (item : Item) (t : Term) : Option Solution :=
  match item with
  | .term u => if u = t then some s else none
  | .var v =>
    match s.get? v with
    | some u => if u = t then some s else none
    | none => some (s.insert v t)

/-- Extends a solution item by item. -/
def unifyAll (s : Solution) : List Item → List Term → Option Solution
  | i :: items, t :: terms => (s.unify i t).bind fun s => s.unifyAll items terms
  | _, _ => some s

def compatible (s t : Solution) : Bool :=
  s.entries.all fun e =>
    match t.get? e.1 with
    | some u => e.2 == u
    | none => true

/-- Adds the bindings of variables that the first solution leaves unbound. -/
def merge (s t : Solution) : Solution :=
  t.entries.foldl (fun m e => if m.contains e.1 then m else m.insert e.1 e.2) s

/-- Whether some variable is bound in both. -/
def overlaps (s t : Solution) : Bool := s.keys.any t.contains

def restrict (s : Solution) (vars : VarSet) : Solution := s.filter fun v _ => vars.contains v

end Solution

/-- The solution that a triple makes of a pattern. -/
def TriplePattern.match? (p : TriplePattern) (t : Triple) (s : Solution) : Option Solution := do
  let s ← s.unify p.subject t.subject
  let s ← s.unify p.predicate t.predicate
  s.unify p.object t.object

/-- A renaming of variables, by target: each target takes the value of its source. -/
abbrev Renaming := VarMap

namespace Renaming

/-- Whether a variable keeps its place: it is no source, or is itself a target. -/
def keeps (r : Renaming) (v : Variable) : Bool := !r.values.contains v || r.contains v

/-- Renames all variables of a solution at once. -/
def solution (r : Renaming) (s : Solution) : Solution :=
  r.entries.foldl (fun out (target, source) =>
    match s.get? source with
    | some t => out.insert target t
    | none => out.erase target) (s.filter fun v _ => r.keeps v)

/-- The variables that a renamed solution binds, from those that the solution binds. -/
def vars (r : Renaming) (s : VarSet) : VarSet :=
  r.entries.foldl (fun out (target, source) =>
    if s.contains source then out.insert target else out.erase target) (s.filter r.keeps)

end Renaming

end QuadAlgebra
