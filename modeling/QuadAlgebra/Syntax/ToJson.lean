import QuadAlgebra.Syntax.Basic
import QuadAlgebra.Term.Json

/-!
# Syntax trees to JSON

Every field of a tree is written, with null for an absent one.
-/

namespace QuadAlgebra

open Json (variant option list nat)

/-! ## Leaves -/

def Symbol.toJson : Symbol → Json
  | .plus => .string "Plus"
  | .minus => .string "Minus"
  | .star => .string "Star"
  | .slash => .string "Slash"
  | .equal => .string "Equal"
  | .notEqual => .string "NotEqual"
  | .lessThan => .string "LessThan"
  | .lessEqual => .string "LessEqual"
  | .greaterThan => .string "GreaterThan"
  | .greaterEqual => .string "GreaterEqual"
  | .sameTerm => .string "SameTerm"
  | .and => .string "And"
  | .or => .string "Or"
  | .not => .string "Not"

def AggregateFunction.toJson : AggregateFunction → Json
  | .count => .string "Count"
  | .sum => .string "Sum"
  | .min => .string "Min"
  | .max => .string "Max"
  | .avg => .string "Avg"
  | .sample => .string "Sample"
  | .groupConcat s => variant "GroupConcat" (.object [("separator", option Json.string s)])

def Duplicates.toJson : Duplicates → Json
  | .all => .string "All"
  | .distinct => .string "Distinct"
  | .reduced => .string "Reduced"

def Direction.toJson : Direction → Json
  | .ascending => .string "Ascending"
  | .descending => .string "Descending"

def Excluded.toJson (e : Excluded) : Json :=
  .object [("iri", e.iri.toJson), ("inverse", .bool e.inverse)]

/-- A path is written by its constructor, with the paths in it. -/
def Path.toJson : Path → Json
  | .predicate iri => variant "Predicate" iri.toJson
  | .inverse p => variant "Inverse" p.toJson
  | .sequence p q => variant "Sequence" (.array [p.toJson, q.toJson])
  | .alternative p q => variant "Alternative" (.array [p.toJson, q.toJson])
  | .negatedSet members => variant "NegatedSet" (list Excluded.toJson members)
  | .repetition p min max =>
    variant "Repeat" (.object [("path", p.toJson), ("min", nat min), ("max", option nat max)])
  | .zeroOrMore p => variant "ZeroOrMore" p.toJson
  | .oneOrMore p => variant "OneOrMore" p.toJson
  | .zeroOrOne p => variant "ZeroOrOne" p.toJson

def PathPattern.toJson (p : PathPattern) : Json :=
  .object [("subject", p.subject.toJson), ("path", p.path.toJson), ("object", p.object.toJson)]

def DatasetClause.toJson (d : DatasetClause) : Json :=
  .object [("default_graphs", list Term.toJson d.defaultGraphs),
    ("named_graphs", list Term.toJson d.namedGraphs)]

def WindowExtent.toJson : WindowExtent → Json
  | .duration n => variant "Duration" (.object [("millis", nat n)])
  | .instances n => variant "Instances" (.object [("count", nat n)])

def Window.toJson (w : Window) : Json :=
  .object [("stream", w.stream.toJson), ("kind", w.extent.toJson)]

def GraphTarget.toJson : GraphTarget → Json
  | .default => .string "Default"
  | .named g => variant "Named" g.toJson
  | .allNamed => .string "AllNamed"
  | .all => .string "All"

/-- A command is written with all of its fields, also those that are not set. -/
def GraphCommand.toJson : GraphCommand → Json
  | .load source destination silent =>
    variant "Load" (.object [("source", source.toJson),
      ("destination", option Term.toJson destination), ("silent", .bool silent)])
  | .clear target silent =>
    variant "Clear" (.object [("target", target.toJson), ("silent", .bool silent)])
  | .create graph silent =>
    variant "Create" (.object [("graph", graph.toJson), ("silent", .bool silent)])
  | .drop target silent =>
    variant "Drop" (.object [("target", target.toJson), ("silent", .bool silent)])

/-! ## Expressions, patterns and queries -/

mutual

/-- An expression is written by its constructor, with what is nested in it. -/
def Expression.toJson : Expression → Json
  | .variable v => variant "Variable" v.toJson
  | .constant t => variant "Constant" t.toJson
  | .binary l s r =>
    variant "Binary" (.object [("left", l.toJson), ("operator", s.toJson), ("right", r.toJson)])
  | .unary s e => variant "Unary" (.object [("operator", s.toJson), ("expression", e.toJson)])
  | .call name args =>
    variant "FunctionCall"
      (.object [("name", .string name), ("arguments", .array (expressionsToJson args))])
  | .bound v => variant "Bound" v.toJson
  | .aggregate a => variant "Aggregate" a.toJson
  | .existence true p => variant "Exists" p.toJson
  | .existence false p => variant "NotExists" p.toJson

def expressionsToJson : List Expression → List Json
  | [] => []
  | e :: rest => e.toJson :: expressionsToJson rest

/-- An argument that is missing is written as null. -/
def Aggregate.toJson : Aggregate → Json
  | ⟨f, d, some e⟩ =>
    .object [("function", f.toJson), ("distinct", .bool d), ("argument", e.toJson)]
  | ⟨f, d, none⟩ => .object [("function", f.toJson), ("distinct", .bool d), ("argument", .null)]

def Group.toJson : Group → Json
  | ⟨elements⟩ => .object [("elements", .array (elementsToJson elements))]

def elementsToJson : List Element → List Json
  | [] => []
  | e :: rest => e.toJson :: elementsToJson rest

def groupsToJson : List Group → List Json
  | [] => []
  | g :: rest => g.toJson :: groupsToJson rest

/-- An element is written by its constructor. -/
def Element.toJson : Element → Json
  | .triple p => variant "Triple" p.toJson
  | .path p => variant "Path" p.toJson
  | .group g => variant "Group" g.toJson
  | .union gs => variant "Union" (.array (groupsToJson gs))
  | .optional g => variant "Optional" g.toJson
  | .minus g => variant "Minus" g.toJson
  | .graph n g => variant "Graph" (.object [("name", n.toJson), ("pattern", g.toJson)])
  | .filter e => variant "Filter" e.toJson
  | .bind e v => variant "Bind" (.object [("expression", e.toJson), ("variable", v.toJson)])
  | .subSelect q => variant "SubSelect" q.toJson
  | .service i g b =>
    variant "Service"
      (.object [("endpoint", i.toJson), ("pattern", g.toJson), ("silent", .bool b)])
  | .window w g => variant "Window" (.object [("window", w.toJson), ("pattern", g.toJson)])
  | .atom a => variant "Predicate" a.toJson

/-- A pattern that is missing is written as null. -/
def Query.toJson : Query → Json
  | ⟨f, d, some p, m⟩ =>
    .object [("form", f.toJson), ("dataset", option DatasetClause.toJson d),
      ("pattern", p.toJson), ("modifiers", m.toJson)]
  | ⟨f, d, none, m⟩ =>
    .object [("form", f.toJson), ("dataset", option DatasetClause.toJson d),
      ("pattern", .null), ("modifiers", m.toJson)]

def QueryForm.toJson : QueryForm → Json
  | .select d s => variant "Select" (.object [("distinct", d.toJson), ("items", s.toJson)])
  | .construct template => variant "Construct" (list TriplePattern.toJson template)
  | .ask => .string "Ask"
  | .describe resources => variant "Describe" (list Item.toJson resources)

def Selection.toJson : Selection → Json
  | .wildcard => .string "Wildcard"
  | .explicit items => variant "Explicit" (.array (selectItemsToJson items))

def selectItemsToJson : List SelectItem → List Json
  | [] => []
  | .variable v :: rest => variant "Variable" v.toJson :: selectItemsToJson rest
  | .computed e v :: rest =>
    variant "Expression" (.object [("expression", e.toJson), ("alias", v.toJson)])
      :: selectItemsToJson rest

def Modifiers.toJson : Modifiers → Json
  | ⟨g, h, o, l, s⟩ =>
    .object [("group_by", .array (groupKeysToJson g)), ("having", .array (expressionsToJson h)),
      ("order_by", .array (sortKeysToJson o)), ("limit", option nat l), ("offset", option nat s)]

def groupKeysToJson : List GroupKey → List Json
  | [] => []
  | .variable v :: rest => variant "Variable" v.toJson :: groupKeysToJson rest
  | .computed e v :: rest =>
    variant "Expression" (.object [("expression", e.toJson), ("alias", option Variable.toJson v)])
      :: groupKeysToJson rest

def sortKeysToJson : List SortKey → List Json
  | [] => []
  | ⟨e, d⟩ :: rest =>
    .object [("expression", e.toJson), ("direction", d.toJson)] :: sortKeysToJson rest

end

/-! ## Documents -/

/-- A modification is written with all of its fields. -/
def Modification.toJson (m : Modification) : Json :=
  .object [("with", option Term.toJson m.within), ("delete", list QuadPattern.toJson m.delete),
    ("insert", list QuadPattern.toJson m.insert), ("using", option DatasetClause.toJson m.dataset),
    ("pattern", m.pattern.toJson)]

/-- An operation is written by its constructor. -/
def UpdateOperation.toJson : UpdateOperation → Json
  | .insertData quads => variant "InsertData" (list QuadPattern.toJson quads)
  | .deleteData quads => variant "DeleteData" (list QuadPattern.toJson quads)
  | .deleteWhere quads => variant "DeleteWhere" (list QuadPattern.toJson quads)
  | .modify m => variant "Modify" m.toJson
  | .command c => c.toJson

def Update.toJson (u : Update) : Json :=
  .object [("operations", list UpdateOperation.toJson u.operations)]

def RuleHead.toJson : RuleHead → Json
  | .triple p => variant "Triple" p.toJson
  | .atom a => variant "Predicate" a.toJson

def Rule.toJson (r : Rule) : Json :=
  .object [("head", list RuleHead.toJson r.heads), ("body", r.body.toJson)]

def RuleOutput.toJson (o : RuleOutput) : Json :=
  .object [("triples", .bool o.triples), ("predicates", .bool o.predicates)]

def RuleProgram.toJson (p : RuleProgram) : Json :=
  .object [("rules", list Rule.toJson p.rules), ("output", p.output.toJson)]

def Document.toJson : Document → Json
  | .query q => variant "Query" q.toJson
  | .update u => variant "Update" u.toJson
  | .rules p => variant "Rules" p.toJson

end QuadAlgebra
