import QuadAlgebra.Term.Basic

/-!
# Syntax trees

The trees of queries, update requests and inference rules, as a parser hands them over.
Expressions and graph patterns contain each other (an expression may ask whether a pattern has
a solution), and a pattern may contain a whole query, so these types are defined together.
-/

namespace QuadAlgebra

/-! ## Symbols -/

/-- The operators of expressions. -/
inductive Symbol where
  | plus
  | minus
  | star
  | slash
  | equal
  | notEqual
  | lessThan
  | lessEqual
  | greaterThan
  | greaterEqual
  | sameTerm
  | and
  | or
  | not
deriving DecidableEq, Inhabited

inductive AggregateFunction where
  | count
  | sum
  | min
  | max
  | avg
  | sample
  /-- Joins texts; without a separator it puts a space between them. -/
  | groupConcat (separator : Option String)
deriving DecidableEq, Inhabited

/-- What happens to repeated solutions of a selection. -/
inductive Duplicates where
  | all
  | distinct
  | reduced
deriving DecidableEq, Inhabited

inductive Direction where
  | ascending
  | descending
deriving DecidableEq, Inhabited

/-! ## Paths -/

/-- A predicate excluded by a negated set. -/
structure Excluded where
  iri : Term
  /-- Whether the predicate is excluded in the backward direction. -/
  inverse : Bool
deriving DecidableEq, Inhabited

/-- A property path. -/
inductive Path where
  | predicate (iri : Term)
  | inverse (path : Path)
  | sequence (first second : Path)
  | alternative (first second : Path)
  | negatedSet (members : List Excluded)
  /-- Between `min` and `max` copies in a row; without a `max` any number from `min` on. -/
  | repetition (path : Path) (min : Nat) (max : Option Nat)
  | zeroOrMore (path : Path)
  | oneOrMore (path : Path)
  | zeroOrOne (path : Path)
deriving DecidableEq, Inhabited

/-- The predicate of a path that is an ordinary triple. -/
def Path.predicate? : Path → Option Term
  | .predicate iri => some iri
  | _ => none

/-- A path between two items. -/
structure PathPattern where
  subject : Item
  path : Path
  object : Item
deriving DecidableEq, Inhabited

/-! ## Graphs -/

/-- The graphs that a query reads, as it lists them. -/
structure DatasetClause where
  defaultGraphs : List Term
  namedGraphs : List Term
deriving DecidableEq, Inhabited

/-- The extent of a stream window. -/
inductive WindowExtent where
  | duration (millis : Nat)
  | instances (count : Nat)
deriving DecidableEq, Inhabited

structure Window where
  stream : Term
  extent : WindowExtent
deriving DecidableEq, Inhabited

/-- The graphs that a command acts on. -/
inductive GraphTarget where
  | default
  | named (graph : Term)
  | allNamed
  | all
deriving DecidableEq, Inhabited

/-- A command on whole graphs. A silent command that cannot be carried out is no failure. -/
inductive GraphCommand where
  | load (source : Term) (destination : Option Term) (silent : Bool)
  | clear (target : GraphTarget) (silent : Bool)
  | create (graph : Term) (silent : Bool)
  | drop (target : GraphTarget) (silent : Bool)
deriving DecidableEq, Inhabited

/-! ## Expressions, patterns and queries -/

mutual

inductive Expression where
  | variable (v : Variable)
  | constant (t : Term)
  | binary (left : Expression) (symbol : Symbol) (right : Expression)
  | unary (symbol : Symbol) (operand : Expression)
  | call (name : String) (arguments : List Expression)
  /-- Whether a variable has a value. -/
  | bound (v : Variable)
  | aggregate (a : Aggregate)
  /-- Whether a pattern has a solution (`positive`) or has none. -/
  | existence (positive : Bool) (pattern : Group)

structure Aggregate where
  function : AggregateFunction
  distinct : Bool
  /-- Absent when whole solutions are counted. -/
  argument : Option Expression

/-- A group graph pattern. -/
structure Group where
  elements : List Element

inductive Element where
  | triple (pattern : TriplePattern)
  | path (pattern : PathPattern)
  | group (pattern : Group)
  | union (branches : List Group)
  | optional (pattern : Group)
  | minus (pattern : Group)
  | graph (name : Item) (pattern : Group)
  | filter (condition : Expression)
  | bind (expression : Expression) (target : Variable)
  | subSelect (query : Query)
  | service (endpoint : Item) (pattern : Group) (silent : Bool)
  | window (window : Window) (pattern : Group)
  /-- A predicate atom, which only rule bodies may hold. -/
  | atom (atom : Atom)

structure Query where
  form : QueryForm
  dataset : Option DatasetClause
  /-- The pattern may only be absent from a description. -/
  pattern : Option Group
  modifiers : Modifiers

inductive QueryForm where
  | select (duplicates : Duplicates) (items : Selection)
  | construct (template : List TriplePattern)
  | ask
  | describe (resources : List Item)

inductive Selection where
  | wildcard
  | explicit (items : List SelectItem)

inductive SelectItem where
  | variable (v : Variable)
  | computed (expression : Expression) (target : Variable)

inductive GroupKey where
  | variable (v : Variable)
  | computed (expression : Expression) (target : Option Variable)

structure SortKey where
  expression : Expression
  direction : Direction

/-- What is done with the solutions of a pattern. -/
structure Modifiers where
  groupBy : List GroupKey
  having : List Expression
  orderBy : List SortKey
  limit : Option Nat
  offset : Option Nat

end

instance : Inhabited Expression := ⟨.constant default⟩
instance : Inhabited Group := ⟨⟨[]⟩⟩
instance : Inhabited Modifiers := ⟨⟨[], [], [], none, none⟩⟩
instance : Inhabited Query := ⟨⟨.ask, none, none, default⟩⟩

/-! ## Updates -/

/-- A change described by templates over the solutions of a pattern. -/
structure Modification where
  /-- The graph meant by templates and patterns that name none. -/
  within : Option Term
  delete : List QuadPattern
  insert : List QuadPattern
  dataset : Option DatasetClause
  pattern : Group

inductive UpdateOperation where
  | insertData (quads : List QuadPattern)
  | deleteData (quads : List QuadPattern)
  | deleteWhere (quads : List QuadPattern)
  | modify (change : Modification)
  | command (command : GraphCommand)

/-- Operations that are carried out one after the other. -/
structure Update where
  operations : List UpdateOperation

/-! ## Inference rules -/

/-- Which derived facts a rule program hands out. -/
structure RuleOutput where
  triples : Bool
  predicates : Bool
deriving DecidableEq, Inhabited

inductive RuleHead where
  | triple (pattern : TriplePattern)
  | atom (atom : Atom)
deriving DecidableEq, Inhabited

structure Rule where
  heads : List RuleHead
  body : Group

/-- Rules that are evaluated together, feeding each other. -/
structure RuleProgram where
  rules : List Rule
  output : RuleOutput

/-- A unit of compilation. -/
inductive Document where
  | query (query : Query)
  | update (update : Update)
  | rules (program : RuleProgram)

/-! ## Order of targets and commands -/

attribute [local instance] lexOrd

namespace GraphTarget

def key : GraphTarget → Nat × Option Term
  | .default => (0, none)
  | .named g => (1, some g)
  | .allNamed => (2, none)
  | .all => (3, none)

theorem key_injective (a b : GraphTarget) (h : a.key = b.key) : a = b := by
  cases a <;> cases b <;> simp_all [key]

instance : Ord GraphTarget := ⟨compareKeys key⟩

instance : Std.TransOrd GraphTarget := compareKeys_trans key

instance : Std.LawfulEqOrd GraphTarget := compareKeys_lawful key key_injective

end GraphTarget

namespace GraphCommand

def key : GraphCommand → Nat × Option Term × Option Term × Option GraphTarget × Bool
  | .load source destination silent => (0, some source, destination, none, silent)
  | .clear target silent => (1, none, none, some target, silent)
  | .create graph silent => (2, some graph, none, none, silent)
  | .drop target silent => (3, none, none, some target, silent)

theorem key_injective (a b : GraphCommand) (h : a.key = b.key) : a = b := by
  cases a <;> cases b <;> simp_all [key]

instance : Ord GraphCommand := ⟨compareKeys key⟩

instance : Std.TransOrd GraphCommand := compareKeys_trans key

instance : Std.LawfulEqOrd GraphCommand := compareKeys_lawful key key_injective

end GraphCommand

end QuadAlgebra
