import QuadAlgebra.Syntax.Basic
import QuadAlgebra.Text.Quoted

/-!
# Descriptions of syntax trees

The full text of a tree, with every constructor and field by name. Labels of operators and
messages show conditions, terms and graph targets this way.
-/

namespace QuadAlgebra

namespace Shown

def nat (n : Nat) : String := n.repr

/-! ## Terms and patterns -/

def var (v : Variable) : String := apply "Variable" [text v.name]

def term : Term → String
  | .iri s => apply "Iri" [text s]
  | .blank s => apply "Blank" [text s]
  | .simple s => apply "Simple" [text s]
  | .tagged s l => fields "LangTagged" [("lexical", text s), ("lang", text l)]
  | .typed s d => fields "Typed" [("lexical", text s), ("datatype", text d)]

def item : Item → String
  | .var v => apply "Var" [var v]
  | .term t => apply "Lit" [term t]

def triple (t : Triple) : String :=
  fields "Triple"
    [("subject", term t.subject), ("predicate", term t.predicate), ("object", term t.object)]

def quad (q : Quad) : String :=
  fields "Quad" [("graph", option (q.graph.map term)), ("triple", triple q.triple)]

def triplePattern (p : TriplePattern) : String :=
  fields "TriplePattern"
    [("subject", item p.subject), ("predicate", item p.predicate), ("object", item p.object)]

def atom (a : Atom) : String :=
  fields "PredicateAtom" [("name", term a.name), ("arguments", list (a.arguments.map item))]

/-! ## Symbols, graphs and paths -/

def symbol : Symbol → String
  | .plus => "Plus"
  | .minus => "Minus"
  | .star => "Star"
  | .slash => "Slash"
  | .equal => "Equal"
  | .notEqual => "NotEqual"
  | .lessThan => "LessThan"
  | .lessEqual => "LessEqual"
  | .greaterThan => "GreaterThan"
  | .greaterEqual => "GreaterEqual"
  | .sameTerm => "SameTerm"
  | .and => "And"
  | .or => "Or"
  | .not => "Not"

def aggregateFunction : AggregateFunction → String
  | .count => "Count"
  | .sum => "Sum"
  | .min => "Min"
  | .max => "Max"
  | .avg => "Avg"
  | .sample => "Sample"
  | .groupConcat s => fields "GroupConcat" [("separator", option (s.map text))]

def duplicates : Duplicates → String
  | .all => "All"
  | .distinct => "Distinct"
  | .reduced => "Reduced"

def direction : Direction → String
  | .ascending => "Ascending"
  | .descending => "Descending"

def graphTarget : GraphTarget → String
  | .default => "Default"
  | .named g => apply "Named" [term g]
  | .allNamed => "AllNamed"
  | .all => "All"

def windowExtent : WindowExtent → String
  | .duration n => fields "Duration" [("millis", nat n)]
  | .instances n => fields "Instances" [("count", nat n)]

def window (w : Window) : String :=
  fields "WindowSpec" [("stream", term w.stream), ("kind", windowExtent w.extent)]

def datasetClause (d : DatasetClause) : String :=
  fields "DatasetClause" [("default_graphs", list (d.defaultGraphs.map term)),
    ("named_graphs", list (d.namedGraphs.map term))]

def excluded (e : Excluded) : String :=
  fields "NegatedPredicate" [("iri", term e.iri), ("inverse", bool e.inverse)]

def path : Path → String
  | .predicate iri => apply "Predicate" [term iri]
  | .inverse p => apply "Inverse" [path p]
  | .sequence p q => apply "Sequence" [path p, path q]
  | .alternative p q => apply "Alternative" [path p, path q]
  | .negatedSet members => apply "NegatedSet" [list (members.map excluded)]
  | .repetition p min max =>
    fields "Repeat" [("path", path p), ("min", nat min), ("max", option (max.map nat))]
  | .zeroOrMore p => apply "ZeroOrMore" [path p]
  | .oneOrMore p => apply "OneOrMore" [path p]
  | .zeroOrOne p => apply "ZeroOrOne" [path p]

def pathPattern (p : PathPattern) : String :=
  fields "PathPattern"
    [("subject", item p.subject), ("path", path p.path), ("object", item p.object)]

/-! ## Expressions, patterns and queries -/

mutual

def expression : Expression → String
  | .variable v => apply "Variable" [var v]
  | .constant t => apply "Constant" [term t]
  | .binary l s r =>
    apply "Binary" [fields "BinaryExpression"
      [("left", expression l), ("operator", symbol s), ("right", expression r)]]
  | .unary s e =>
    apply "Unary" [fields "UnaryExpression" [("operator", symbol s), ("expression", expression e)]]
  | .call name args =>
    apply "FunctionCall" [fields "FunctionCall"
      [("name", text name), ("arguments", list (expressions args))]]
  | .bound v => apply "Bound" [var v]
  | .aggregate a => apply "Aggregate" [aggregate a]
  | .existence true p => apply "Exists" [group p]
  | .existence false p => apply "NotExists" [group p]

def expressions : List Expression → List String
  | [] => []
  | e :: rest => expression e :: expressions rest

def aggregate : Aggregate → String
  | ⟨f, d, some e⟩ =>
    fields "AggregateExpression" [("function", aggregateFunction f), ("distinct", bool d),
      ("argument", option (some (expression e)))]
  | ⟨f, d, none⟩ =>
    fields "AggregateExpression" [("function", aggregateFunction f), ("distinct", bool d),
      ("argument", option none)]

def group : Group → String
  | ⟨members⟩ => fields "GroupGraphPattern" [("elements", list (elements members))]

def groups : List Group → List String
  | [] => []
  | g :: rest => group g :: groups rest

def elements : List Element → List String
  | [] => []
  | e :: rest => element e :: elements rest

def element : Element → String
  | .triple p => apply "Triple" [triplePattern p]
  | .path p => apply "Path" [pathPattern p]
  | .group g => apply "Group" [group g]
  | .union gs => apply "Union" [list (groups gs)]
  | .optional g => apply "Optional" [group g]
  | .minus g => apply "Minus" [group g]
  | .graph n g => fields "Graph" [("name", item n), ("pattern", group g)]
  | .filter e => apply "Filter" [expression e]
  | .bind e v => fields "Bind" [("expression", expression e), ("variable", var v)]
  | .subSelect q => apply "SubSelect" [query q]
  | .service i g b =>
    fields "Service" [("endpoint", item i), ("pattern", group g), ("silent", bool b)]
  | .window w g => fields "Window" [("window", window w), ("pattern", group g)]
  | .atom a => apply "Predicate" [atom a]

def query : Query → String
  | ⟨f, d, some p, m⟩ =>
    fields "Query" [("form", queryForm f), ("dataset", option (d.map datasetClause)),
      ("pattern", option (some (group p))), ("modifiers", modifiers m)]
  | ⟨f, d, none, m⟩ =>
    fields "Query" [("form", queryForm f), ("dataset", option (d.map datasetClause)),
      ("pattern", option none), ("modifiers", modifiers m)]

def queryForm : QueryForm → String
  | .select d s =>
    apply "Select" [fields "SelectClause" [("distinct", duplicates d), ("items", selection s)]]
  | .construct template => apply "Construct" [list (template.map triplePattern)]
  | .ask => "Ask"
  | .describe resources => apply "Describe" [list (resources.map item)]

def selection : Selection → String
  | .wildcard => "Wildcard"
  | .explicit items => apply "Explicit" [list (selectItems items)]

def selectItems : List SelectItem → List String
  | [] => []
  | .variable v :: rest => apply "Variable" [var v] :: selectItems rest
  | .computed e v :: rest =>
    fields "Expression" [("expression", expression e), ("alias", var v)] :: selectItems rest

def modifiers : Modifiers → String
  | ⟨g, h, o, l, s⟩ =>
    fields "SolutionModifiers" [("group_by", list (groupKeys g)), ("having", list (expressions h)),
      ("order_by", list (sortKeys o)), ("limit", option (l.map nat)),
      ("offset", option (s.map nat))]

def groupKeys : List GroupKey → List String
  | [] => []
  | .variable v :: rest => apply "Variable" [var v] :: groupKeys rest
  | .computed e v :: rest =>
    fields "Expression" [("expression", expression e), ("alias", option (v.map var))]
      :: groupKeys rest

def sortKeys : List SortKey → List String
  | [] => []
  | ⟨e, d⟩ :: rest =>
    fields "OrderCondition" [("expression", expression e), ("direction", direction d)]
      :: sortKeys rest

end

end Shown

end QuadAlgebra
