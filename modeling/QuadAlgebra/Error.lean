import QuadAlgebra.Plan.Operator

/-!
# Causes of failure

Everything that can go wrong while a document is planned, a plan is optimized or evaluated, or a
change is applied. A document may break a rule of its language, it may ask for something that
is not available here, or a plan may be broken. Each cause carries what its message mentions;
the wording is in one function.
-/

namespace QuadAlgebra

/-- Operators of a plan are known by numbers. -/
abbrev OperatorId := Nat

/-- The written form of an operator's number. -/
def idText (id : OperatorId) : String := "#" ++ id.repr

/-! ## Causes -/

/-- A rule of the language that a document breaks, or data that cannot be read. -/
inductive Malformed where
  | aggregateInFilter
  /-- Computed variables that depend on each other. -/
  | cyclicBindings (vars : List Variable)
  | groupedWildcard
  | notGrouped (v : Variable)
  /-- A variable in a computed selection that grouping does not keep. -/
  | notGroupedIn (v target : Variable)
  | bindTargetInScope (target : Variable)
  | subqueryForm
  | subqueryDataset
  | atomOutsideRules
  | repetitionBounds (min max : Nat)
  | ruleWithoutHead
  /-- A variable or blank node in the data of an insertion or a deletion. -/
  | variableInData (inserting : Bool) (pattern : TriplePattern)
  | blankInData (inserting : Bool) (pattern : TriplePattern)
  | blankInDelete (pattern : TriplePattern)
  | emptyModification
  | missingGraph (graph : Term)
  | existingGraph (graph : Term)
  | unreadableQuads
deriving DecidableEq

/-- What an evaluator or a store may lack. -/
inductive Unsupported where
  | capability (feature : String)
  | existenceInBind
  | remoteCall (endpoint : Item)
  | load (source : Term)
deriving DecidableEq

/-- The rows that an operator may expect. -/
inductive RowShape where
  | solutions
  | quads
  | derivedTriples
  | derivedFacts
  | actions
  | triplesOrFacts
deriving DecidableEq

/-- What can be wrong with a plan or its handling. -/
inductive Fault where
  | unknownOperator (id : OperatorId)
  | removedTarget (source target : OperatorId)
  | rootRemoval
  | oneSidedEdge (source target : OperatorId)
  | cycle (id : OperatorId)
  | unconverged (iterations : Nat)
  | unexpectedRow (id : OperatorId) (expected : RowShape) (row : Row)
  | missingNestedPlan (place : Nat)
  /-- The index of operators lists other operators of a kind than the graph has. -/
  | staleIndex (kind : Kind) (indexed live : OrdSet OperatorId)
  | indexedNotLive
  /-- A rule was given operators that it cannot change. -/
  | badMatch (rule message : String)
  | passLimit (passes : Nat)
  | unreadableConfiguration
deriving DecidableEq

inductive Error where
  | malformed (cause : Malformed)
  | unsupported (cause : Unsupported)
  | internal (cause : Fault)
deriving DecidableEq

/-! ## Messages -/

def Malformed.text : Malformed → String
  | .aggregateInFilter => "aggregates cannot be evaluated inside a filter"
  | .cyclicBindings vars =>
    "cyclic SELECT expression between " ++ ", ".intercalate (vars.map Variable.text)
  | .groupedWildcard => "SELECT * cannot be combined with GROUP BY"
  | .notGrouped v => "variable " ++ v.text ++ " is not bound by GROUP BY"
  | .notGroupedIn v target =>
    "variable " ++ v.text ++ " in the expression for " ++ target.text ++ " is not bound by GROUP BY"
  | .bindTargetInScope target => "BIND target " ++ target.text ++ " is already in scope"
  | .subqueryForm => "a sub-query must be a SELECT"
  | .subqueryDataset => "a sub-query cannot carry FROM clauses"
  | .atomOutsideRules => "predicate atoms are only allowed in rule bodies"
  | .repetitionBounds min max =>
    "path repetition \x7b" ++ min.repr ++ "," ++ max.repr ++
      "\x7d has a lower bound above its upper bound"
  | .ruleWithoutHead => "inference rule without a head"
  | .variableInData inserting p =>
    "variables are not allowed in " ++ (if inserting then "INSERT" else "DELETE") ++ " DATA: " ++
      p.text
  | .blankInData inserting p =>
    "blank nodes are not allowed in " ++ (if inserting then "INSERT" else "DELETE") ++ " DATA: " ++
      p.text
  | .blankInDelete p => "blank nodes are not allowed in DELETE templates: " ++ p.text
  | .emptyModification => "DELETE/INSERT without any template"
  | .missingGraph g => "graph " ++ g.text ++ " does not exist"
  | .existingGraph g => "graph " ++ g.text ++ " already exists"
  | .unreadableQuads => "invalid quad data"

def Unsupported.text : Unsupported → String
  | .capability feature => feature ++ " is not supported by the configured evaluator"
  | .existenceInBind => "EXISTS inside BIND"
  | .remoteCall endpoint => "the in-memory interpreter cannot call SERVICE " ++ endpoint.text
  | .load source => "the in-memory store cannot load " ++ source.text

def RowShape.text : RowShape → String
  | .solutions => "solutions"
  | .quads => "quads"
  | .derivedTriples => "derived triples"
  | .derivedFacts => "derived facts"
  | .actions => "update actions"
  | .triplesOrFacts => "triples or facts"

/-- The members of a set of operators, as messages show them. -/
def idSetText (ids : OrdSet OperatorId) : String :=
  Shown.braces (ids.toList.map fun id => Shown.apply "OperatorId" [id.repr])

def Fault.text : Fault → String
  | .unknownOperator id => "unknown operator " ++ idText id
  | .removedTarget source target =>
    "cannot connect " ++ idText source ++ " to removed operator " ++ idText target
  | .rootRemoval => "the root operator cannot be removed"
  | .oneSidedEdge source target => "one-sided edge " ++ idText source ++ " -> " ++ idText target
  | .cycle id => "operator graph contains a cycle through " ++ idText id
  | .unconverged n => "plan evaluation did not converge within " ++ n.repr ++ " iterations"
  | .unexpectedRow id expected row =>
    idText id ++ " expected " ++ expected.text ++ " but received " ++ Shown.row row
  | .missingNestedPlan place => "filter has no nested plan for EXISTS pattern " ++ place.repr
  | .staleIndex kind indexed live =>
    "start-node index out of date for " ++ kind.name ++ ": indexed " ++ idSetText indexed ++
      ", live " ++ idSetText live
  | .indexedNotLive => "start-node index holds operators that are no longer live"
  | .badMatch rule message => rule ++ ": " ++ message
  | .passLimit n => "rewriting did not reach a fixpoint within " ++ n.repr ++ " passes"
  | .unreadableConfiguration => "invalid compiler configuration"

def Error.message : Error → String
  | .malformed cause => "Malformed query: " ++ cause.text
  | .unsupported cause => "Unsupported feature: " ++ cause.text
  | .internal cause => "Internal build error: " ++ cause.text

/-! ## Editing -/

/-- A computation that changes a state and may fail. The state that it has reached is kept when it
fails. -/
abbrev Edit (σ : Type) := ExceptT Error (StateM σ)

namespace Edit

variable {σ τ α : Type}

/-- Runs an edit from a state, to its outcome and the state that it leaves. -/
def runOn (edit : Edit σ α) (s : σ) : Except Error α × σ := Id.run (StateT.run (ExceptT.run edit) s)

/-- Stops with a fault. -/
def fault (cause : Fault) : Edit σ α := throw (.internal cause)

/-- Edits a part of a larger state. -/
def within (get : τ → σ) (set : σ → τ → τ) (edit : Edit σ α) : Edit τ α :=
  ExceptT.mk do
    let (outcome, s) := edit.runOn (get (← StateT.get))
    modify (set s)
    return outcome

end Edit

end QuadAlgebra
