import QuadAlgebra.Syntax.Basic
import QuadAlgebra.Term.Json

/-!
# Syntax trees from JSON

The readers of nested trees go down at least one level of the JSON value with every call, so its
number of levels bounds their recursion.
-/

namespace QuadAlgebra

open Json (list? nullable? pair? unit? natBelow? count?)

/-! ## Leaves -/

/-- The symbols of expressions are written as names without data. -/
def Symbol.ofJson? (j : Json) : Option Symbol := do
  let (name, data) ← j.variant?
  unit? data
  match name with
  | "Plus" => return .plus
  | "Minus" => return .minus
  | "Star" => return .star
  | "Slash" => return .slash
  | "Equal" => return .equal
  | "NotEqual" => return .notEqual
  | "LessThan" => return .lessThan
  | "LessEqual" => return .lessEqual
  | "GreaterThan" => return .greaterThan
  | "GreaterEqual" => return .greaterEqual
  | "SameTerm" => return .sameTerm
  | "And" => return .and
  | "Or" => return .or
  | "Not" => return .not
  | _ => none

/-- A function of aggregates, of which one has data: the separator between values. -/
def AggregateFunction.ofJson? (j : Json) : Option AggregateFunction := do
  match ← j.variant? with
  | ("GroupConcat", some d) =>
    let fields ← d.record? ["separator"]
    return .groupConcat (← fields.option? "separator" Json.string?)
  | (name, data) =>
    unit? data
    match name with
    | "Count" => return .count
    | "Sum" => return .sum
    | "Min" => return .min
    | "Max" => return .max
    | "Avg" => return .avg
    | "Sample" => return .sample
    | _ => none

def Duplicates.ofJson? (j : Json) : Option Duplicates := do
  let (name, data) ← j.variant?
  unit? data
  match name with
  | "All" => return .all
  | "Distinct" => return .distinct
  | "Reduced" => return .reduced
  | _ => none

def Direction.ofJson? (j : Json) : Option Direction := do
  let (name, data) ← j.variant?
  unit? data
  match name with
  | "Ascending" => return .ascending
  | "Descending" => return .descending
  | _ => none

def Excluded.ofJson? (j : Json) : Option Excluded := do
  let fields ← j.record? ["iri", "inverse"]
  return ⟨← fields.get? "iri" Term.ofJson?, ← fields.get? "inverse" Json.bool?⟩

/-- A path of at most the given number of levels. -/
def Path.read? : Nat → Json → Option Path
  | 0, _ => none
  | n + 1, j => do
    let (name, data) ← j.variant?
    let d ← data
    match name with
    | "Predicate" => return .predicate (← Term.ofJson? d)
    | "Inverse" => return .inverse (← read? n d)
    | "Sequence" =>
      let (p, q) ← pair? d
      return .sequence (← read? n p) (← read? n q)
    | "Alternative" =>
      let (p, q) ← pair? d
      return .alternative (← read? n p) (← read? n q)
    | "NegatedSet" => return .negatedSet (← d.list? Excluded.ofJson?)
    | "Repeat" =>
      let fields ← d.record? ["path", "min", "max"]
      return .repetition (← fields.get? "path" (read? n))
        (← fields.get? "min" (natBelow? (Nat.pow 2 32)))
        (← fields.option? "max" (natBelow? (Nat.pow 2 32)))
    | "ZeroOrMore" => return .zeroOrMore (← read? n d)
    | "OneOrMore" => return .oneOrMore (← read? n d)
    | "ZeroOrOne" => return .zeroOrOne (← read? n d)
    | _ => none

/-- A path is read as deep as the text is nested. -/
def Path.ofJson? (j : Json) : Option Path := Path.read? j.depth j

def PathPattern.ofJson? (j : Json) : Option PathPattern := do
  let fields ← j.record? ["subject", "path", "object"]
  return ⟨← fields.get? "subject" Item.ofJson?, ← fields.get? "path" Path.ofJson?,
    ← fields.get? "object" Item.ofJson?⟩

def DatasetClause.ofJson? (j : Json) : Option DatasetClause := do
  let fields ← j.record? ["default_graphs", "named_graphs"]
  return ⟨← fields.get? "default_graphs" (list? Term.ofJson?),
    ← fields.get? "named_graphs" (list? Term.ofJson?)⟩

/-- The extent of a window: so much time or so many instances. -/
def WindowExtent.ofJson? (j : Json) : Option WindowExtent := do
  match ← j.variant? with
  | ("Duration", some d) =>
    let fields ← d.record? ["millis"]
    return .duration (← fields.get? "millis" count?)
  | ("Instances", some d) =>
    let fields ← d.record? ["count"]
    return .instances (← fields.get? "count" count?)
  | _ => none

def Window.ofJson? (j : Json) : Option Window := do
  let fields ← j.record? ["stream", "kind"]
  return ⟨← fields.get? "stream" Term.ofJson?, ← fields.get? "kind" WindowExtent.ofJson?⟩

/-- The target of a command on graphs. -/
def GraphTarget.ofJson? (j : Json) : Option GraphTarget := do
  match ← j.variant? with
  | ("Named", some d) => return .named (← Term.ofJson? d)
  | (name, data) =>
    unit? data
    match name with
    | "Default" => return .default
    | "AllNamed" => return .allNamed
    | "All" => return .all
    | _ => none

/-- A command from the name and the data of a variant. -/
def GraphCommand.ofVariant? (name : String) (d : Json) : Option GraphCommand := do
  match name with
  | "Load" =>
    let fields ← d.record? ["source", "destination", "silent"]
    return .load (← fields.get? "source" Term.ofJson?)
      (← fields.option? "destination" Term.ofJson?) (← fields.get? "silent" Json.bool?)
  | "Clear" =>
    let fields ← d.record? ["target", "silent"]
    return .clear (← fields.get? "target" GraphTarget.ofJson?) (← fields.get? "silent" Json.bool?)
  | "Create" =>
    let fields ← d.record? ["graph", "silent"]
    return .create (← fields.get? "graph" Term.ofJson?) (← fields.get? "silent" Json.bool?)
  | "Drop" =>
    let fields ← d.record? ["target", "silent"]
    return .drop (← fields.get? "target" GraphTarget.ofJson?) (← fields.get? "silent" Json.bool?)
  | _ => none

/-! ## Expressions, patterns and queries -/

mutual

/-- Reads an expression, in which aggregates and groups may be nested. -/
def Expression.read? : Nat → Json → Option Expression
  | 0, _ => none
  | n + 1, j => do
    let (name, data) ← j.variant?
    let d ← data
    match name with
    | "Variable" => return .variable (← Variable.ofJson? d)
    | "Constant" => return .constant (← Term.ofJson? d)
    | "Binary" =>
      let fields ← d.record? ["left", "operator", "right"]
      return .binary (← fields.get? "left" (Expression.read? n))
        (← fields.get? "operator" Symbol.ofJson?) (← fields.get? "right" (Expression.read? n))
    | "Unary" =>
      let fields ← d.record? ["operator", "expression"]
      return .unary (← fields.get? "operator" Symbol.ofJson?)
        (← fields.get? "expression" (Expression.read? n))
    | "FunctionCall" =>
      let fields ← d.record? ["name", "arguments"]
      return .call (← fields.get? "name" Json.string?)
        (← fields.get? "arguments" (list? (Expression.read? n)))
    | "Bound" => return .bound (← Variable.ofJson? d)
    | "Aggregate" => return .aggregate (← Aggregate.read? n d)
    | "Exists" => return .existence true (← Group.read? n d)
    | "NotExists" => return .existence false (← Group.read? n d)
    | _ => none

/-- Reads an aggregate, whose argument may be missing. -/
def Aggregate.read? : Nat → Json → Option Aggregate
  | 0, _ => none
  | n + 1, j => do
    let fields ← j.record? ["function", "distinct", "argument"]
    return ⟨← fields.get? "function" AggregateFunction.ofJson?,
      ← fields.get? "distinct" Json.bool?, ← fields.option? "argument" (Expression.read? n)⟩

/-- Reads a group by its elements. -/
def Group.read? : Nat → Json → Option Group
  | 0, _ => none
  | n + 1, j => do
    let fields ← j.record? ["elements"]
    return ⟨← fields.get? "elements" (list? (Element.read? n))⟩

/-- Reads one element of a group, which may hold groups and queries. -/
def Element.read? : Nat → Json → Option Element
  | 0, _ => none
  | n + 1, j => do
    let (name, data) ← j.variant?
    let d ← data
    match name with
    | "Triple" => return .triple (← TriplePattern.ofJson? d)
    | "Path" => return .path (← PathPattern.ofJson? d)
    | "Group" => return .group (← Group.read? n d)
    | "Union" => return .union (← d.list? (Group.read? n))
    | "Optional" => return .optional (← Group.read? n d)
    | "Minus" => return .minus (← Group.read? n d)
    | "Graph" =>
      let fields ← d.record? ["name", "pattern"]
      return .graph (← fields.get? "name" Item.ofJson?) (← fields.get? "pattern" (Group.read? n))
    | "Filter" => return .filter (← Expression.read? n d)
    | "Bind" =>
      let fields ← d.record? ["expression", "variable"]
      return .bind (← fields.get? "expression" (Expression.read? n))
        (← fields.get? "variable" Variable.ofJson?)
    | "SubSelect" => return .subSelect (← Query.read? n d)
    | "Service" =>
      let fields ← d.record? ["endpoint", "pattern", "silent"]
      return .service (← fields.get? "endpoint" Item.ofJson?)
        (← fields.get? "pattern" (Group.read? n)) (← fields.get? "silent" Json.bool?)
    | "Window" =>
      let fields ← d.record? ["window", "pattern"]
      return .window (← fields.get? "window" Window.ofJson?)
        (← fields.get? "pattern" (Group.read? n))
    | "Predicate" => return .atom (← Atom.ofJson? d)
    | _ => none

/-- Reads a query, whose pattern may be missing. -/
def Query.read? : Nat → Json → Option Query
  | 0, _ => none
  | n + 1, j => do
    let fields ← j.record? ["form", "dataset", "pattern", "modifiers"]
    return ⟨← fields.get? "form" (QueryForm.read? n),
      ← fields.option? "dataset" DatasetClause.ofJson?,
      ← fields.option? "pattern" (Group.read? n),
      ← fields.get? "modifiers" (Modifiers.read? n)⟩

/-- Reads what a query asks for. -/
def QueryForm.read? : Nat → Json → Option QueryForm
  | 0, _ => none
  | n + 1, j => do
    match ← j.variant? with
    | ("Select", some d) =>
      let fields ← d.record? ["distinct", "items"]
      return .select (← fields.get? "distinct" Duplicates.ofJson?)
        (← fields.get? "items" (Selection.read? n))
    | ("Construct", some d) => return .construct (← d.list? TriplePattern.ofJson?)
    | ("Describe", some d) => return .describe (← d.list? Item.ofJson?)
    | ("Ask", data) =>
      unit? data
      return .ask
    | _ => none

/-- Reads what is selected: everything or a list of items. -/
def Selection.read? : Nat → Json → Option Selection
  | 0, _ => none
  | n + 1, j => do
    match ← j.variant? with
    | ("Explicit", some d) => return .explicit (← d.list? (SelectItem.read? n))
    | ("Wildcard", data) =>
      unit? data
      return .wildcard
    | _ => none

/-- Reads a variable or an expression with its name. -/
def SelectItem.read? : Nat → Json → Option SelectItem
  | 0, _ => none
  | n + 1, j => do
    match ← j.variant? with
    | ("Variable", some d) => return .variable (← Variable.ofJson? d)
    | ("Expression", some d) =>
      let fields ← d.record? ["expression", "alias"]
      return .computed (← fields.get? "expression" (Expression.read? n))
        (← fields.get? "alias" Variable.ofJson?)
    | _ => none

/-- Reads the modifiers of a query, of which limit and offset may be missing. -/
def Modifiers.read? : Nat → Json → Option Modifiers
  | 0, _ => none
  | n + 1, j => do
    let fields ← j.record? ["group_by", "having", "order_by", "limit", "offset"]
    return ⟨← fields.get? "group_by" (list? (GroupKey.read? n)),
      ← fields.get? "having" (list? (Expression.read? n)),
      ← fields.get? "order_by" (list? (SortKey.read? n)),
      ← fields.option? "limit" count?, ← fields.option? "offset" count?⟩

/-- Reads a variable, or an expression that may have a name. -/
def GroupKey.read? : Nat → Json → Option GroupKey
  | 0, _ => none
  | n + 1, j => do
    match ← j.variant? with
    | ("Variable", some d) => return .variable (← Variable.ofJson? d)
    | ("Expression", some d) =>
      let fields ← d.record? ["expression", "alias"]
      return .computed (← fields.get? "expression" (Expression.read? n))
        (← fields.option? "alias" Variable.ofJson?)
    | _ => none

/-- Reads an expression with the direction of the order. -/
def SortKey.read? : Nat → Json → Option SortKey
  | 0, _ => none
  | n + 1, j => do
    let fields ← j.record? ["expression", "direction"]
    return ⟨← fields.get? "expression" (Expression.read? n),
      ← fields.get? "direction" Direction.ofJson?⟩

end

def Expression.ofJson? (j : Json) : Option Expression := Expression.read? j.depth j
def Aggregate.ofJson? (j : Json) : Option Aggregate := Aggregate.read? j.depth j
def Group.ofJson? (j : Json) : Option Group := Group.read? j.depth j
def Query.ofJson? (j : Json) : Option Query := Query.read? j.depth j
def SortKey.ofJson? (j : Json) : Option SortKey := SortKey.read? j.depth j

/-! ## Documents -/

/-- Reads an update with its templates and its pattern. -/
def Modification.ofJson? (j : Json) : Option Modification := do
  let fields ← j.record? ["with", "delete", "insert", "using", "pattern"]
  return ⟨← fields.option? "with" Term.ofJson?,
    ← fields.get? "delete" (list? QuadPattern.ofJson?),
    ← fields.get? "insert" (list? QuadPattern.ofJson?),
    ← fields.option? "using" DatasetClause.ofJson?,
    ← fields.get? "pattern" Group.ofJson?⟩

/-- Reads one operation of an update. -/
def UpdateOperation.ofJson? (j : Json) : Option UpdateOperation := do
  let (name, data) ← j.variant?
  let d ← data
  match name with
  | "InsertData" => return .insertData (← d.list? QuadPattern.ofJson?)
  | "DeleteData" => return .deleteData (← d.list? QuadPattern.ofJson?)
  | "DeleteWhere" => return .deleteWhere (← d.list? QuadPattern.ofJson?)
  | "Modify" => return .modify (← Modification.ofJson? d)
  | _ => return .command (← GraphCommand.ofVariant? name d)

def Update.ofJson? (j : Json) : Option Update := do
  let fields ← j.record? ["operations"]
  return ⟨← fields.get? "operations" (list? UpdateOperation.ofJson?)⟩

def RuleHead.ofJson? (j : Json) : Option RuleHead := do
  match ← j.variant? with
  | ("Triple", some d) => return .triple (← TriplePattern.ofJson? d)
  | ("Predicate", some d) => return .atom (← Atom.ofJson? d)
  | _ => none

/-- Reads a rule by its heads and its body. -/
def Rule.ofJson? (j : Json) : Option Rule := do
  let fields ← j.record? ["head", "body"]
  return ⟨← fields.get? "head" (list? RuleHead.ofJson?), ← fields.get? "body" Group.ofJson?⟩

def RuleOutput.ofJson? (j : Json) : Option RuleOutput := do
  let fields ← j.record? ["triples", "predicates"]
  return ⟨← fields.get? "triples" Json.bool?, ← fields.get? "predicates" Json.bool?⟩

def RuleProgram.ofJson? (j : Json) : Option RuleProgram := do
  let fields ← j.record? ["rules", "output"]
  return ⟨← fields.get? "rules" (list? Rule.ofJson?), ← fields.get? "output" RuleOutput.ofJson?⟩

/-- Reads a document: a query, an update or a program of rules. -/
def Document.ofJson? (j : Json) : Option Document := do
  match ← j.variant? with
  | ("Query", some d) => return .query (← Query.ofJson? d)
  | ("Update", some d) => return .update (← Update.ofJson? d)
  | ("Rules", some d) => return .rules (← RuleProgram.ofJson? d)
  | _ => none

end QuadAlgebra
