import QuadAlgebra.Solution.Row
import QuadAlgebra.Syntax.Scope

/-!
# Plan operators

The operators that a plan is made of. An operator reads its inputs by operand number; all inputs
on one operand are read together, as one bag of rows. A filter may carry plans of its own, one
for each existence pattern of its condition, so operators are generic in what such a nested plan
is: a plan, its description, or what it evaluates to.
-/

namespace QuadAlgebra

/-! ## Parts of operators -/

/-- What a plan hands to its caller. -/
inductive ResultForm where
  /-- Solutions over the listed variables, or all of them if none is listed. -/
  | select (vars : List Variable)
  | construct
  | ask
  | describe
  | update
  /-- What a rule program derives. -/
  | materialize (output : RuleOutput)
deriving DecidableEq, Inhabited

/-- Where a scan reads from. -/
structure ScanSource where
  dataset : String
  /-- Whether scans of this dataset may be merged. -/
  inMemory : Bool
deriving DecidableEq, Inhabited

/-- The search for solutions of some triple patterns in the stored triples. -/
structure IndexScan where
  patterns : List TriplePattern
  /-- Without a graph the default graph is read; a variable ranges over the named graphs. -/
  graph : Option Item
  source : ScanSource
deriving DecidableEq, Inhabited

namespace IndexScan

def vars (s : IndexScan) : VarSet :=
  OrdSet.unionOf TriplePattern.vars s.patterns ∪ Item.vars s.graph.toList

def renamed (m : VarMap) (s : IndexScan) : IndexScan :=
  { s with patterns := s.patterns.map (·.renamed m), graph := s.graph.map (·.renamed m) }

end IndexScan

/-- Where an evaluator keeps a condition that it has accepted. -/
structure FilterSlot where
  evaluator : String
  slot : Nat
deriving DecidableEq, Inhabited

/-- A condition with the plans for its existence patterns, by their places in it. -/
structure Filter (γ : Type) where
  condition : Expression
  nested : List (Nat × γ)
  slot : Option FilterSlot

/-! ## Operators -/

inductive Operator (γ : Type) where
  /-- The source of every plan. It emits one empty solution. -/
  | root
  /-- A sink whose rows are handed to the caller. -/
  | result (form : ResultForm)
  | scan (scan : IndexScan)
  /-- Emits one solution per graph that it ranges over, or a single one. -/
  | probe (graph : Option Item)
  | join
  /-- Left join; operand 0 is kept. -/
  | optional
  /-- Operand 0 without the solutions that have a compatible partner in operand 1. -/
  | minus
  | union
  | filter (filter : Filter γ)
  /-- Keeps solutions in which both sides of every pair are the same term. -/
  | ruleFilter (equalities : List (Item × Item))
  | projection (vars : VarSet)
  | bind (target : Variable) (expression : Expression)
  | replaceVar (pairs : Renaming)
  | sort (keys : List SortKey)
  | limit (count : Nat)
  | offset (count : Nat)
  | distinct
  /-- Removal of duplicates that reads a single scan. -/
  | indexDistinct
  | group (keys : List Variable) (aggregates : List (Variable × Aggregate))
  /-- Quads from templates, for every solution. -/
  | construct (template : List QuadPattern)
  /-- The triple of a rule head, for every solution. -/
  | generate (head : TriplePattern)
  /-- The fact of a rule head, for every solution. -/
  | constructAtom (head : Atom)
  /-- Derived triples that match a pattern of a rule body. -/
  | matchTriple (pattern : TriplePattern)
  /-- Derived facts that match an atom of a rule body. -/
  | matchAtom (pattern : Atom)
  | insert
  | delete
  | command (command : GraphCommand)
  /-- The solutions of a pattern at a remote endpoint. -/
  | service (endpoint : Item) (pattern : Group) (silent : Bool)
  | window (window : Window)
  | describe (resources : List Item)

instance (γ : Type) : Inhabited (Operator γ) := ⟨.root⟩

/-! ## Kinds -/

/-- The kinds of operators. -/
inductive Kind where
  | root
  | result
  | scan
  | probe
  | join
  | optional
  | minus
  | union
  | filter
  | ruleFilter
  | projection
  | bind
  | replaceVar
  | sort
  | limit
  | offset
  | distinct
  | indexDistinct
  | group
  | construct
  | generate
  | constructAtom
  | matchTriple
  | matchAtom
  | insert
  | delete
  | load
  | clear
  | create
  | drop
  | service
  | window
  | describe
deriving DecidableEq, Inhabited

namespace Kind

def all : List Kind :=
  [.root, .result, .scan, .probe, .join, .optional, .minus, .union, .filter, .ruleFilter,
    .projection, .bind, .replaceVar, .sort, .limit, .offset, .distinct, .indexDistinct, .group,
    .construct, .generate, .constructAtom, .matchTriple, .matchAtom, .insert, .delete, .load,
    .clear, .create, .drop, .service, .window, .describe]

def name : Kind → String
  | .root => "Root"
  | .result => "Result"
  | .scan => "IndexScan"
  | .probe => "EmptyIndexScan"
  | .join => "Join"
  | .optional => "Optional"
  | .minus => "Minus"
  | .union => "Union"
  | .filter => "Filter"
  | .ruleFilter => "RuleFilter"
  | .projection => "Projection"
  | .bind => "Bind"
  | .replaceVar => "ReplaceVar"
  | .sort => "Sort"
  | .limit => "Limit"
  | .offset => "Offset"
  | .distinct => "Distinct"
  | .indexDistinct => "IndexDistinct"
  | .group => "Group"
  | .construct => "Construct"
  | .generate => "Generate"
  | .constructAtom => "ConstructPredicate"
  | .matchTriple => "TriplePatternMatch"
  | .matchAtom => "PredicatePattern"
  | .insert => "Insert"
  | .delete => "Delete"
  | .load => "Load"
  | .clear => "Clear"
  | .create => "Create"
  | .drop => "Drop"
  | .service => "Service"
  | .window => "Window"
  | .describe => "Describe"

def ofName? (s : String) : Option Kind := all.find? (·.name == s)

end Kind

def GraphCommand.kind : GraphCommand → Kind
  | .load .. => .load
  | .clear .. => .clear
  | .create .. => .create
  | .drop .. => .drop

namespace Operator

variable {γ δ : Type}

def kind : Operator γ → Kind
  | .root => .root
  | .result _ => .result
  | .scan _ => .scan
  | .probe _ => .probe
  | .join => .join
  | .optional => .optional
  | .minus => .minus
  | .union => .union
  | .filter _ => .filter
  | .ruleFilter _ => .ruleFilter
  | .projection _ => .projection
  | .bind .. => .bind
  | .replaceVar _ => .replaceVar
  | .sort _ => .sort
  | .limit _ => .limit
  | .offset _ => .offset
  | .distinct => .distinct
  | .indexDistinct => .indexDistinct
  | .group .. => .group
  | .construct _ => .construct
  | .generate _ => .generate
  | .constructAtom _ => .constructAtom
  | .matchTriple _ => .matchTriple
  | .matchAtom _ => .matchAtom
  | .insert => .insert
  | .delete => .delete
  | .command c => c.kind
  | .service .. => .service
  | .window _ => .window
  | .describe _ => .describe

/-- Puts other nested plans into an operator. -/
def withNested (nested : List (Nat × δ)) : Operator γ → Operator δ
  | .root => .root
  | .result form => .result form
  | .scan s => .scan s
  | .probe g => .probe g
  | .join => .join
  | .optional => .optional
  | .minus => .minus
  | .union => .union
  | .filter f => .filter ⟨f.condition, nested, f.slot⟩
  | .ruleFilter equalities => .ruleFilter equalities
  | .projection vars => .projection vars
  | .bind target e => .bind target e
  | .replaceVar r => .replaceVar r
  | .sort keys => .sort keys
  | .limit n => .limit n
  | .offset n => .offset n
  | .distinct => .distinct
  | .indexDistinct => .indexDistinct
  | .group keys aggregates => .group keys aggregates
  | .construct template => .construct template
  | .generate p => .generate p
  | .constructAtom a => .constructAtom a
  | .matchTriple p => .matchTriple p
  | .matchAtom a => .matchAtom a
  | .insert => .insert
  | .delete => .delete
  | .command c => .command c
  | .service endpoint g silent => .service endpoint g silent
  | .window w => .window w
  | .describe resources => .describe resources

/-- The nested plans of an operator. -/
def nested : Operator γ → List (Nat × γ)
  | .filter f => f.nested
  | _ => []

def scan? : Operator γ → Option IndexScan
  | .scan s => some s
  | _ => none

/-- A condition that is not kept by any evaluator and has no nested plans. -/
def ofCondition (e : Expression) : Operator γ := .filter ⟨e, [], none⟩

/-- Whether the operator emits nothing when nothing arrives on the operand. -/
def requires (operand : Nat) : Operator γ → Bool
  | .root | .result _ | .union => false
  | .optional | .minus => operand == 0
  | _ => true

/-- The variables that the operator itself reads. -/
def reads : Operator γ → VarSet
  | .filter f => f.condition.vars
  | .ruleFilter equalities => Item.vars (equalities.flatMap fun e => [e.1, e.2])
  | .bind _ e => e.vars
  | .replaceVar r => OrdSet.ofList r.values
  | .projection vars => vars
  | .sort keys => OrdSet.unionOf (fun k => k.expression.vars) keys
  | _ => ∅

/-! ## Labels -/

def varTexts (vars : List Variable) : String := " ".intercalate (vars.map Variable.text)

def bracketed (name content : String) : String := name ++ "[" ++ content ++ "]"

def graphSuffix : Option Item → String
  | none => ""
  | some g => " graph=" ++ g.text

/-- The line that stands for an operator in the text of a plan. -/
def label : Operator γ → String
  | .root => "Root"
  | .result form =>
    bracketed "Result" <| match form with
      | .select vars => Shown.apply "Select" [Shown.list (vars.map Shown.var)]
      | .construct => "Construct"
      | .ask => "Ask"
      | .describe => "Describe"
      | .update => "Update"
      | .materialize o =>
        Shown.fields "Materialize"
          [("triples", Shown.bool o.triples), ("predicates", Shown.bool o.predicates)]
  | .scan s =>
    bracketed "IndexScan" (" ".intercalate (s.patterns.map TriplePattern.text)) ++
      graphSuffix s.graph
  | .probe g => "EmptyIndexScan" ++ graphSuffix g
  | .filter f =>
    bracketed "Filter" (Shown.expression f.condition) ++
      if f.nested.isEmpty then "" else " nested=" ++ f.nested.length.repr
  | .ruleFilter equalities =>
    bracketed "RuleFilter"
      (", ".intercalate (equalities.map fun e => e.1.text ++ " == " ++ e.2.text))
  | .projection vars => bracketed "Projection" (varTexts vars.toList)
  | .bind target e => bracketed "Bind" (target.text ++ " := " ++ Shown.expression e)
  | .replaceVar r =>
    bracketed "ReplaceVar"
      (", ".intercalate (r.entries.map fun e => e.1.text ++ " := " ++ e.2.text))
  | .sort keys => bracketed "Sort" (keys.length.repr ++ " keys")
  | .limit n => bracketed "Limit" n.repr
  | .offset n => bracketed "Offset" n.repr
  | .group keys aggregates =>
    bracketed "Group"
      ("keys=" ++ varTexts keys ++ "; aggregates=" ++ varTexts (aggregates.map (·.1)))
  | .construct template => bracketed "Construct" (template.length.repr ++ " quads")
  | .generate p => "Generate" ++ p.text
  | .constructAtom a => bracketed "ConstructPredicate" a.text
  | .matchTriple p => "TriplePattern" ++ p.text
  | .matchAtom a => bracketed "PredicatePattern" a.text
  | .command (.load source destination _) =>
    bracketed "Load" <| match destination with
      | some d => source.text ++ " into " ++ d.text
      | none => source.text
  | .command (.clear target _) => bracketed "Clear" (Shown.graphTarget target)
  | .command (.create graph _) => bracketed "Create" graph.text
  | .command (.drop target _) => bracketed "Drop" (Shown.graphTarget target)
  | .service endpoint _ _ => bracketed "Service" endpoint.text
  | .window w => bracketed "Window" (w.stream.text ++ " " ++ Shown.windowExtent w.extent)
  | .describe resources => bracketed "Describe" (" ".intercalate (resources.map Item.text))
  | .join => "Join"
  | .optional => "Optional"
  | .minus => "Minus"
  | .union => "Union"
  | .distinct => "Distinct"
  | .indexDistinct => "IndexDistinct"
  | .insert => "Insert"
  | .delete => "Delete"

end Operator

end QuadAlgebra
