import QuadAlgebra.Syntax.Scope

/-!
# Building syntax trees

Short forms for the trees that programs write most often.
-/

namespace QuadAlgebra

namespace Modifiers

/-- No solution modifiers. -/
def none : Modifiers := ⟨[], [], [], .none, .none⟩

end Modifiers

namespace Query

/-- A selection over a pattern, with repetitions and in no order. -/
def select (items : Selection) (pattern : Group) : Query :=
  ⟨.select .all items, none, some pattern, .none⟩

/-- The query for all variables of a pattern. -/
def selectAll (pattern : Group) : Query := select .wildcard pattern

/-- The query for some variables of a pattern. -/
def selectVars (vars : List Variable) (pattern : Group) : Query :=
  select (.explicit (vars.map .variable)) pattern

/-- The query that builds triples from the solutions of a pattern. -/
def construct (template : List TriplePattern) (pattern : Group) : Query :=
  ⟨.construct template, none, some pattern, .none⟩

/-- The query whether a pattern has a solution. -/
def ask (pattern : Group) : Query := ⟨.ask, none, some pattern, .none⟩

/-- The query with other solution modifiers. -/
def withModifiers (q : Query) (m : Modifiers) : Query := { q with modifiers := m }

/-- The query over another dataset. -/
def withDataset (q : Query) (d : DatasetClause) : Query := { q with dataset := some d }

/-- Removes repetitions from a selection; other forms stay as they are. -/
def withDistinct (q : Query) : Query :=
  match q.form with
  | .select _ items => { q with form := .select .distinct items }
  | _ => q

end Query

namespace Group

/-- The group of some triple patterns. -/
def ofTriples (triples : List TriplePattern) : Group := ⟨triples.map .triple⟩

end Group

namespace Path

/-- The path of one predicate. -/
def iri (s : String) : Path := .predicate (.iri s)

end Path

namespace Expression

def equal (l r : Expression) : Expression := .binary l .equal r

def notEqual (l r : Expression) : Expression := .binary l .notEqual r

def and (l r : Expression) : Expression := .binary l .and r

def not (e : Expression) : Expression := .unary .not e

/-- An aggregate that counts repetitions. -/
def ofAggregate (f : AggregateFunction) (argument : Option Expression) : Expression :=
  .aggregate ⟨f, false, argument⟩

end Expression

end QuadAlgebra
