import QuadAlgebra.Optimization.Workspace

/-!
# Matches and rules

A rule looks at the surroundings of an operator. If they have the shape that it wants, the rule
names the operators that it is going to change by the parts that they play, and then changes them.
-/

namespace QuadAlgebra

/-! ## Surroundings of an operator -/

/-- The two sides of an operator. -/
inductive Side where
  | producers
  | consumers
deriving DecidableEq

namespace Graph

variable {γ : Type}

/-- The input of an operator that has only one. -/
def singleInput? (g : Graph γ) (id : OperatorId) : Option Input :=
  match g.inputs id with
  | [i] => some i
  | _ => none

/-- The consumer of an operator that has only one outgoing edge. -/
def singleConsumer? (g : Graph γ) (id : OperatorId) : Option OperatorId :=
  match g.succeeding id with
  | [e] => some e.target
  | _ => none

/-- The next operator on one side, if there is only one edge. -/
def single? (g : Graph γ) (side : Side) (id : OperatorId) : Option OperatorId :=
  match side with
  | .producers => (g.singleInput? id).map Input.source
  | .consumers => g.singleConsumer? id

/-- The number of edges on one side. -/
def degree (g : Graph γ) (side : Side) (id : OperatorId) : Nat :=
  match side with
  | .producers => (g.inputs id).length
  | .consumers => (g.succeeding id).length

/-- Whether an operator is read by one other only, over one forward edge. -/
def feedsOnly (g : Graph γ) (i : Input) (consumer : OperatorId) : Bool :=
  !i.feedback && g.singleConsumer? i.source == some consumer

/-- The producers of some inputs, in order of their numbers. -/
def sourcesOf (inputs : List Input) : List OperatorId :=
  (OrdSet.ofList (inputs.map Input.source)).toList

/-- Whether no producer occurs twice among some inputs. -/
def sourcesDiffer (inputs : List Input) : Bool := (sourcesOf inputs).length == inputs.length

/-- Follows single edges over operators of the accepted kinds to the first one of another kind.
Returns it with the operators in between. A chain does not run in circles, so the first argument
need not exceed the number of operators. -/
def chainFrom (g : Graph γ) (side : Side) (accepted : List Kind) (start : OperatorId) :
    Nat → OperatorId → List OperatorId → Option (OperatorId × List OperatorId)
  | 0, _, _ => none
  | bound + 1, current, skipped => do
    let next ← g.single? side current
    if next = start || skipped.contains next then none
    else
      let kind ← g.kind? next
      if accepted.contains kind then g.chainFrom side accepted start bound next (skipped ++ [next])
      else return (next, skipped)

def chain? (g : Graph γ) (side : Side) (accepted : List Kind) (start : OperatorId) :
    Option (OperatorId × List OperatorId) :=
  g.chainFrom side accepted start (g.slots.length + 1) start []

end Graph

/-! ## Matches -/

/-- The part that an operator plays in a match. -/
inductive Role where
  | below
  | discarding
  | head
  | input
  | member
  | moved
  | scan
  | skipped
  | target
deriving DecidableEq

namespace Role

def all : List Role :=
  [.below, .discarding, .head, .input, .member, .moved, .scan, .skipped, .target]

def name : Role → String
  | .below => "below"
  | .discarding => "discarding"
  | .head => "head"
  | .input => "input"
  | .member => "member"
  | .moved => "moved"
  | .scan => "scan"
  | .skipped => "skipped"
  | .target => "target"

def ofName? (s : String) : Option Role := all.find? (·.name == s)

end Role

/-- The place at which a rule applies, with the operators that play a part. -/
structure Match where
  root : OperatorId
  parts : List (Role × OperatorId)
deriving DecidableEq

namespace Match

/-- A match in which no other operator plays a part. -/
def only (root : OperatorId) : Match := ⟨root, []⟩

def bind (m : Match) (role : Role) (id : OperatorId) : Match :=
  { m with parts := m.parts ++ [(role, id)] }

def bindAll (m : Match) (role : Role) (ids : List OperatorId) : Match :=
  { m with parts := m.parts ++ ids.map fun id => (role, id) }

def all (m : Match) (role : Role) : List OperatorId :=
  (m.parts.filter (·.1 == role)).map (·.2)

def first? (m : Match) (role : Role) : Option OperatorId := (m.all role).head?

end Match

/-! ## Rules -/

/-- A local change of graphs. -/
structure PlanRule (γ : Type) where
  name : String
  /-- The kind of operator at which a match is looked for. -/
  start : Kind
  match? : Graph γ → OperatorId → Option Match
  replace : Match → Reshape γ Unit

/-- Stops because a rule was given a match that is none. -/
def Reshape.badMatch {γ α : Type} (rule message : String) : Reshape γ α :=
  Edit.fault (.badMatch rule message)

end QuadAlgebra
