import QuadAlgebra.Syntax.Basic

/-!
# Variables and parts of syntax trees

Which variables a solution of a pattern may bind, which variables an expression mentions, where
expressions hold aggregates, and the existence patterns of an expression in the order in which
a reader meets them. The place of such a pattern in that order is its name: the plan made for
it is kept under its place.
-/

namespace QuadAlgebra

/-! ## Variables in scope -/

def SelectItem.target : SelectItem → Variable
  | .variable v => v
  | .computed _ target => target

mutual

/-- The variables that a solution of the group may bind. -/
def Group.scope : Group → VarSet
  | ⟨elements⟩ => elementsScope elements

def elementsScope : List Element → VarSet
  | [] => ∅
  | e :: rest => e.scope ∪ elementsScope rest

/-- The variables that an element adds to the scope of its group. Filters and subtracted patterns
add none. -/
def Element.scope : Element → VarSet
  | .triple p => p.vars
  | .path p => Item.vars [p.subject, p.object]
  | .group g | .optional g | .service _ g _ | .window _ g => g.scope
  | .union branches => groupsScope branches
  | .graph name g => Item.vars [name] ∪ g.scope
  | .bind _ target => OrdSet.singleton target
  | .subSelect q => q.scope
  | .atom a => a.vars
  | .minus _ | .filter _ => ∅

def groupsScope : List Group → VarSet
  | [] => ∅
  | g :: rest => g.scope ∪ groupsScope rest

/-- The variables that a selection shows to the pattern around it. -/
def Query.scope : Query → VarSet
  | ⟨.select _ (.explicit items), _, _, _⟩ => OrdSet.ofList (items.map SelectItem.target)
  | ⟨.select _ .wildcard, _, some g, _⟩ => g.scope
  | _ => ∅

end

/-! ## Expressions -/

namespace Expression

mutual

/-- The variables that an expression mentions, those in scope of its existence patterns
included. -/
def vars : Expression → VarSet
  | .variable v | .bound v => OrdSet.singleton v
  | .constant _ => ∅
  | .binary l _ r => l.vars ∪ r.vars
  | .unary _ e => e.vars
  | .call _ args => varsOf args
  | .aggregate ⟨_, _, some e⟩ => e.vars
  | .aggregate ⟨_, _, none⟩ => ∅
  | .existence _ p => p.scope

def varsOf : List Expression → VarSet
  | [] => ∅
  | e :: rest => e.vars ∪ varsOf rest

end

mutual

/-- Whether an aggregate stands in the expression, outside its existence patterns. -/
def hasAggregate : Expression → Bool
  | .aggregate _ => true
  | .binary l _ r => l.hasAggregate || r.hasAggregate
  | .unary _ e => e.hasAggregate
  | .call _ args => anyAggregate args
  | _ => false

def anyAggregate : List Expression → Bool
  | [] => false
  | e :: rest => e.hasAggregate || anyAggregate rest

end

mutual

/-- The existence patterns of an expression, from left to right. Those inside the argument of an
aggregate do not count. -/
def existencePatterns : Expression → List Group
  | .existence _ p => [p]
  | .binary l _ r => l.existencePatterns ++ r.existencePatterns
  | .unary _ e => e.existencePatterns
  | .call _ args => existencePatternsOf args
  | _ => []

def existencePatternsOf : List Expression → List Group
  | [] => []
  | e :: rest => e.existencePatterns ++ existencePatternsOf rest

end

/-- Whether the expression asks for the existence of solutions. -/
def hasExistence (e : Expression) : Bool := !e.existencePatterns.isEmpty

section MapAggregates

variable {σ : Type} (replace : Aggregate → StateM σ Expression)

mutual

/-- Replaces every aggregate, from left to right. -/
def mapAggregates : Expression → StateM σ Expression
  | .aggregate a => replace a
  | .binary l s r => do
    let l ← l.mapAggregates
    let r ← r.mapAggregates
    return .binary l s r
  | .unary s e => do return .unary s (← e.mapAggregates)
  | .call name args => do return .call name (← mapAggregatesOf args)
  | e => return e

def mapAggregatesOf : List Expression → StateM σ (List Expression)
  | [] => return []
  | e :: rest => do
    let e ← e.mapAggregates
    let rest ← mapAggregatesOf rest
    return e :: rest

end

end MapAggregates

/-- The expression that an item stands for. -/
def ofItem : Item → Expression
  | .var v => .variable v
  | .term t => .constant t

end Expression

end QuadAlgebra
