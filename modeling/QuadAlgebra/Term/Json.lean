import QuadAlgebra.Json.Record
import QuadAlgebra.Term.Basic

/-!
# Terms and patterns in JSON
-/

namespace QuadAlgebra

open Json (variant option list)

/-! ## Writing -/

def Variable.toJson (v : Variable) : Json := .string v.name

def Term.toJson : Term → Json
  | .iri s => variant "Iri" (.string s)
  | .blank s => variant "Blank" (.string s)
  | .simple s => variant "Simple" (.string s)
  | .tagged s l => variant "LangTagged" (.object [("lexical", .string s), ("lang", .string l)])
  | .typed s d => variant "Typed" (.object [("lexical", .string s), ("datatype", .string d)])

def Item.toJson : Item → Json
  | .var v => variant "Var" v.toJson
  | .term t => variant "Lit" t.toJson

def TriplePattern.toJson (p : TriplePattern) : Json :=
  .object [("subject", p.subject.toJson), ("predicate", p.predicate.toJson),
    ("object", p.object.toJson)]

def Triple.toJson (t : Triple) : Json :=
  .object [("subject", t.subject.toJson), ("predicate", t.predicate.toJson),
    ("object", t.object.toJson)]

def Quad.toJson (q : Quad) : Json :=
  .object [("graph", option Term.toJson q.graph), ("triple", q.triple.toJson)]

def QuadPattern.toJson (p : QuadPattern) : Json :=
  .object [("graph", option Item.toJson p.graph), ("triple", p.triple.toJson)]

def Atom.toJson (a : Atom) : Json :=
  .object [("name", a.name.toJson), ("arguments", list Item.toJson a.arguments)]

def VarSet.toJson (s : VarSet) : Json := list Variable.toJson s.toList

/-! ## Reading -/

def Variable.ofJson? (j : Json) : Option Variable := j.string?.map Variable.mk

def Term.ofJson? (j : Json) : Option Term := do
  match ← j.variant? with
  | ("Iri", some d) => return .iri (← d.string?)
  | ("Blank", some d) => return .blank (← d.string?)
  | ("Simple", some d) => return .simple (← d.string?)
  | ("LangTagged", some d) =>
    let fields ← d.record? ["lexical", "lang"]
    return .tagged (← fields.get? "lexical" Json.string?) (← fields.get? "lang" Json.string?)
  | ("Typed", some d) =>
    let fields ← d.record? ["lexical", "datatype"]
    return .typed (← fields.get? "lexical" Json.string?) (← fields.get? "datatype" Json.string?)
  | _ => none

def Item.ofJson? (j : Json) : Option Item := do
  match ← j.variant? with
  | ("Var", some d) => return .var (← Variable.ofJson? d)
  | ("Lit", some d) => return .term (← Term.ofJson? d)
  | _ => none

def TriplePattern.ofJson? (j : Json) : Option TriplePattern := do
  let fields ← j.record? ["subject", "predicate", "object"]
  return ⟨← fields.get? "subject" Item.ofJson?, ← fields.get? "predicate" Item.ofJson?,
    ← fields.get? "object" Item.ofJson?⟩

def Triple.ofJson? (j : Json) : Option Triple := do
  let fields ← j.record? ["subject", "predicate", "object"]
  return ⟨← fields.get? "subject" Term.ofJson?, ← fields.get? "predicate" Term.ofJson?,
    ← fields.get? "object" Term.ofJson?⟩

def Quad.ofJson? (j : Json) : Option Quad := do
  let fields ← j.record? ["graph", "triple"]
  return ⟨← fields.option? "graph" Term.ofJson?, ← fields.get? "triple" Triple.ofJson?⟩

def QuadPattern.ofJson? (j : Json) : Option QuadPattern := do
  let fields ← j.record? ["graph", "triple"]
  return ⟨← fields.option? "graph" Item.ofJson?, ← fields.get? "triple" TriplePattern.ofJson?⟩

def Atom.ofJson? (j : Json) : Option Atom := do
  let fields ← j.record? ["name", "arguments"]
  return ⟨← fields.get? "name" Term.ofJson?, ← fields.get? "arguments" (Json.list? Item.ofJson?)⟩

end QuadAlgebra
