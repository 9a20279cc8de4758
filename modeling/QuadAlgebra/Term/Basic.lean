import QuadAlgebra.Ordered.Map

/-!
# Terms, triples and patterns

The data that plans compute with: concrete terms, triples of terms, and quads, which are
triples in a graph. Patterns have the same shapes with variables in some positions. Terms are
ordered by kind first (IRI, blank node, plain string, tagged string, typed value) and then by
their texts; a quad of the default graph comes before every quad of a named graph.
-/

namespace QuadAlgebra

attribute [local instance] lexOrd

/-! ## Variables -/

/-- A query variable. -/
structure Variable where
  name : String
deriving DecidableEq, Inhabited

namespace Variable

instance : Ord Variable := ⟨compareKeys Variable.name⟩

instance : Std.TransOrd Variable := compareKeys_trans Variable.name

instance : Std.LawfulEqOrd Variable :=
  compareKeys_lawful Variable.name fun a b h => by cases a; cases b; cases h; rfl

/-- The `n`-th variable made by the planner itself. Its name starts with a character that no
written variable has. -/
def interim (n : Nat) : Variable := ⟨"#i" ++ n.repr⟩

/-- Interim variables are told by their names, which no query can write. -/
def isInterim (v : Variable) : Bool := "#".isPrefixOf v.name

/-- The written form of a variable. -/
def text (v : Variable) : String := "?" ++ v.name

end Variable

/-- A finite set of variables. -/
abbrev VarSet := OrdSet Variable

/-! ## Terms -/

/-- A concrete term. -/
inductive Term where
  /-- The name of a resource. -/
  | iri (text : String)
  /-- A node without a name, known by a label. -/
  | blank (label : String)
  /-- A plain string. -/
  | simple (text : String)
  /-- A string in a natural language. -/
  | tagged (text lang : String)
  /-- The text of a value of some datatype. -/
  | typed (text datatype : String)
deriving DecidableEq, Inhabited

namespace Term

/-- Kind first, then the texts. -/
def key : Term → Nat × String × String
  | .iri s => (0, s, "")
  | .blank s => (1, s, "")
  | .simple s => (2, s, "")
  | .tagged s l => (3, s, l)
  | .typed s d => (4, s, d)

/-- Terms are known by their kinds and texts. -/
theorem key_injective (a b : Term) (h : a.key = b.key) : a = b := by
  cases a <;> cases b <;> simp_all [key]

instance : Ord Term := ⟨compareKeys key⟩

instance : Std.TransOrd Term := compareKeys_trans key

instance : Std.LawfulEqOrd Term := compareKeys_lawful key key_injective

/-- Names of graphs, predicates and services are of this form. -/
def isIri : Term → Bool
  | .iri _ => true
  | _ => false

/-- A term that stands for some node without a name of its own. -/
def isBlank : Term → Bool
  | .blank _ => true
  | _ => false

/-- The text of a term without its marks: the IRI, the label or the value's text. -/
def lexical : Term → String
  | .iri s | .blank s | .simple s | .tagged s _ | .typed s _ => s

/-- The written form of a term. -/
def text : Term → String
  | .iri s => "<" ++ s ++ ">"
  | .blank s => "_:" ++ s
  | .simple s => "\"" ++ s ++ "\""
  | .tagged s l => "\"" ++ s ++ "\"@" ++ l
  | .typed s d => "\"" ++ s ++ "\"^^<" ++ d ++ ">"

end Term

/-! ## Triples and quads -/

/-- A statement about a subject. -/
structure Triple where
  subject : Term
  predicate : Term
  object : Term
deriving DecidableEq, Inhabited

namespace Triple

/-- Triples are ordered by subject, predicate and object. -/
def key (t : Triple) : Term × Term × Term := (t.subject, t.predicate, t.object)

theorem key_injective (a b : Triple) (h : a.key = b.key) : a = b := by
  cases a; cases b; simp_all [key]

instance : Ord Triple := ⟨compareKeys key⟩

instance : Std.TransOrd Triple := compareKeys_trans key

instance : Std.LawfulEqOrd Triple := compareKeys_lawful key key_injective

end Triple

/-- A triple in a graph; without a graph it stands in the default graph. -/
structure Quad where
  graph : Option Term
  triple : Triple
deriving DecidableEq, Inhabited

namespace Quad

/-- Quads are ordered by their graphs first. -/
def key (q : Quad) : Option Term × Triple := (q.graph, q.triple)

theorem key_injective (a b : Quad) (h : a.key = b.key) : a = b := by
  cases a; cases b; simp_all [key]

instance : Ord Quad := ⟨compareKeys key⟩

instance : Std.TransOrd Quad := compareKeys_trans key

instance : Std.LawfulEqOrd Quad := compareKeys_lawful key key_injective

/-- The written form of a quad: its three terms and then its graph. -/
def text (q : Quad) : String :=
  let terms := [q.triple.subject, q.triple.predicate, q.triple.object] ++ q.graph.toList
  " ".intercalate (terms.map Term.text)

end Quad

/-! ## Patterns -/

/-- A position of a pattern. -/
inductive Item where
  | var (v : Variable)
  | term (t : Term)
deriving DecidableEq, Inhabited

/-- A finite renaming or substitution of variables by variables. -/
abbrev VarMap := OrdMap Variable Variable

namespace Item

/-- The variable, unless the item is a term. -/
def var? : Item → Option Variable
  | .var v => some v
  | .term _ => none

/-- The term, unless the item is a variable. -/
def term? : Item → Option Term
  | .var _ => none
  | .term t => some t

def isVar (i : Item) : Bool := i.var?.isSome

def isBlank : Item → Bool
  | .var _ => false
  | .term t => t.isBlank

/-- Replaces a variable that the map mentions. -/
def renamed (m : VarMap) : Item → Item
  | .var v => .var ((m.get? v).getD v)
  | .term t => .term t

def text : Item → String
  | .var v => v.text
  | .term t => t.text

/-- The variables among some items. -/
def vars (items : List Item) : VarSet := OrdSet.ofList (items.filterMap var?)

end Item

/-- A triple with variables in some positions. -/
structure TriplePattern where
  subject : Item
  predicate : Item
  object : Item
deriving DecidableEq, Inhabited

namespace TriplePattern

/-- The items of a pattern in the order of a triple. -/
def items (p : TriplePattern) : List Item := [p.subject, p.predicate, p.object]

/-- The variables that a pattern binds. -/
def vars (p : TriplePattern) : VarSet := Item.vars p.items

/-- The pattern with some of its variables renamed. -/
def renamed (m : VarMap) (p : TriplePattern) : TriplePattern :=
  ⟨p.subject.renamed m, p.predicate.renamed m, p.object.renamed m⟩

/-- Whether anything in the pattern is left open. -/
def hasVariables (p : TriplePattern) : Bool := p.items.any Item.isVar

/-- Whether a blank node is written in the pattern. -/
def hasBlanks (p : TriplePattern) : Bool := p.items.any Item.isBlank

def text (p : TriplePattern) : String :=
  "(" ++ p.subject.text ++ " " ++ p.predicate.text ++ " " ++ p.object.text ++ ")"

end TriplePattern

/-- A triple pattern with an optional graph position. -/
structure QuadPattern where
  graph : Option Item
  triple : TriplePattern
deriving DecidableEq, Inhabited

namespace QuadPattern

/-- Whether anything in the pattern is left open, the graph included. -/
def hasVariables (p : QuadPattern) : Bool := p.triple.hasVariables || p.graph.any Item.isVar

/-- Whether a blank node is written in the pattern or for its graph. -/
def hasBlanks (p : QuadPattern) : Bool := p.triple.hasBlanks || p.graph.any Item.isBlank

end QuadPattern

/-- A named predicate applied to arguments, as in rule heads and bodies. -/
structure Atom where
  name : Term
  arguments : List Item
deriving DecidableEq, Inhabited

namespace Atom

/-- The variables among the arguments. -/
def vars (a : Atom) : VarSet := Item.vars a.arguments

def text (a : Atom) : String :=
  a.name.text ++ "(" ++ ", ".intercalate (a.arguments.map Item.text) ++ ")"

end Atom

end QuadAlgebra
