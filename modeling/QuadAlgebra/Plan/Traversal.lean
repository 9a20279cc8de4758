import QuadAlgebra.Plan.Graph

/-!
# Walks over operator graphs

A depth-first walk records the operators in the order in which it reaches them and in the order in
which it leaves them. The second order, reversed, lists producers before consumers if the edges
that are not feedback form no cycle; otherwise some operator of a cycle is reported.
-/

namespace QuadAlgebra

/-! ## Depth-first walks -/

/-- What a walk has seen, latest first, and what it has left, latest first. -/
structure Walk where
  seen : List OperatorId
  left : List OperatorId

namespace Walk

def start : Walk := ⟨[], []⟩

/-- Visits an operator and everything that it leads to. The first argument bounds the depth; a
path without repetitions is no longer than the number of operators. -/
def visit (next : OperatorId → List OperatorId) : Nat → Walk → OperatorId → Walk
  | 0, w, _ => w
  | depth + 1, w, id =>
    if w.seen.contains id then w
    else
      let w := (next id).foldl (visit next depth) { w with seen := id :: w.seen }
      { w with left := id :: w.left }

end Walk

namespace Graph

variable {γ : Type}

/-- The consumers that are read forward, once per edge. -/
def forward (g : Graph γ) (id : OperatorId) : List OperatorId :=
  ((g.succeeding id).filter fun e => !e.feedback && g.contains e.target).map Edge.target

/-- The consumers over any edge, once per edge. -/
def consumers (g : Graph γ) (id : OperatorId) : List OperatorId :=
  ((g.succeeding id).map Edge.target).filter g.contains

/-- The walk from some operators, in order. -/
def walkFrom (g : Graph γ) (next : OperatorId → List OperatorId) (starts : List OperatorId) :
    Walk :=
  starts.foldl (Walk.visit next (g.slots.length + 1)) .start

/-! ## Topological order -/

/-- An operator that is listed before one of its producers, told by the first such place: the
lowest-numbered producer that is still missing there. -/
def misplaced (g : Graph γ) : List OperatorId → List OperatorId → Option OperatorId
  | _, [] => none
  | before, id :: rest =>
    let before := id :: before
    match g.ids.find? fun s => (g.forward s).contains id && !before.contains s with
    | some s => some s
    | none => misplaced g before rest

/-- All operators, each after the operators that it reads forward. -/
def topologicalOrder (g : Graph γ) : Except Error (List OperatorId) :=
  let walk := g.walkFrom g.forward g.ids
  let selfLoop := walk.seen.reverse.find? fun id => (g.forward id).contains id
  match selfLoop.or (g.misplaced [] walk.left) with
  | some id => .error (.internal (.cycle id))
  | none => .ok walk.left

def detectCycles (g : Graph γ) : Except Error Unit := do
  let _ ← g.topologicalOrder

/-! ## Loops and reachability -/

/-- The operators that lead back to themselves over edges of any kind. -/
def loopMembers (g : Graph γ) : List OperatorId :=
  g.ids.filter fun id => (g.walkFrom g.consumers (g.consumers id)).seen.contains id

/-- The operators that the root leads to, in the order of a walk. -/
def reachable (g : Graph γ) : List OperatorId :=
  (g.walkFrom g.consumers [root]).seen.reverse

end Graph

end QuadAlgebra
