import QuadAlgebra.Optimization.Matching

/-!
# Rules that fit heads to matchers

A head that feeds nothing but one matcher is unified with the pattern of the matcher. What the head
reads then reaches the consumers of the matcher without being turned into a triple or fact and back:
projected to the variables of the head, restricted, renamed to the variables of the pattern,
and extended by constants. If the two have no common instance, the head is cut off.
-/

namespace QuadAlgebra

/-! ## Unification -/

/-- What it takes for an instance of a head to match a pattern. -/
structure Specialization where
  /-- Terms of the head that have to be equal. -/
  equalities : List (Item × Item)
  /-- Variables of the pattern that take the value of a variable of the head. -/
  renamed : Renaming
  /-- Variables of the pattern that take a constant of the head. -/
  constants : List (Variable × Term)
deriving DecidableEq

namespace Specialization

/-- What has been found about some positions: the equalities, and the item of the head that stands
for each variable of the pattern. -/
structure Unifier where
  equalities : List (Item × Item)
  assigned : OrdMap Variable Item

namespace Unifier

def require (u : Unifier) (a b : Item) : Unifier :=
  { u with equalities := u.equalities ++ [(a, b)] }

/-- Unifies the items of head and pattern at one position. -/
def unify (u : Unifier) (head pattern : Item) : Option Unifier :=
  match pattern with
  | .term t =>
    match head with
    | .term s => if s = t then some u else none
    | .var _ => some (u.require head pattern)
  | .var v =>
    match u.assigned.get? v with
    | none => some { u with assigned := u.assigned.insert v head }
    | some earlier =>
      if earlier = head then some u
      else
        match earlier, head with
        | .term _, .term _ => none
        | _, _ => some (u.require earlier head)

end Unifier

/-- Unifies head and pattern position by position. There is no result if some position can never
agree. -/
def unify? (heads patterns : List Item) : Option Specialization := do
  let u ← (heads.zip patterns).foldlM (fun (u : Unifier) (head, pattern) => u.unify head pattern)
    ⟨[], ∅⟩
  let renamings := u.assigned.entries.filterMap fun (v, i) => i.var?.map fun source => (v, source)
  let constants := u.assigned.entries.filterMap fun (v, i) => i.term?.map fun t => (v, t)
  return ⟨u.equalities, OrdMap.ofList renamings, constants⟩

/-- The operators that turn solutions of a head into solutions of the pattern, the first one to be
applied first. -/
def operators {γ : Type} (s : Specialization) (headVars : VarSet) : List (Operator γ) :=
  [.projection headVars] ++
  (if s.equalities.isEmpty then [] else [.ruleFilter s.equalities]) ++
  (if s.renamed.entries.any fun e => e.1 != e.2 then [.replaceVar s.renamed] else []) ++
  [.projection s.renamed.keySet] ++
  s.constants.map fun (v, t) => .bind v (.constant t)

end Specialization

/-! ## Rules -/

namespace PlanRule

variable {γ : Type}

/-- The head that feeds nothing but the matcher. A matcher without inputs is a match as well:
nothing can ever be derived for it. -/
def matchHead (matcher head : Kind) (g : Graph γ) (id : OperatorId) : Option Match :=
  if g.kind? id != some matcher then none
  else if (g.inputs id).isEmpty then some (.only id)
  else
    ((g.inputs id).find? fun i =>
      g.kind? i.source == some head && g.singleConsumer? i.source == some id).map fun i =>
        (Match.only id).bind .head i.source

/-- Leads what a head reads to the consumers of a matcher. -/
def bypass (head matcher : OperatorId) (ops : List (Operator γ)) : Reshape γ Unit := do
  let links ← Reshape.look (·.edgesBetween head matcher)
  let inputs ← Reshape.look (·.inputs head)
  match ops with
  | [] => return
  | op :: rest =>
    let first ← Reshape.add op
    inputs.forM fun i => Reshape.connect i.source first 0 i.feedback
    let last ← rest.foldlM Reshape.above first
    (← Reshape.look (·.succeeding matcher)).forM fun e =>
      Reshape.connect last e.target e.operand (e.feedback || links.any Input.feedback)

/-- Cuts a head from a matcher and removes what has become useless. -/
def cutHead (head matcher : OperatorId) : Reshape γ Unit := do
  Reshape.disconnect head matcher
  let _ ← Reshape.cascade head
  if (← Reshape.look (·.inputs matcher)).isEmpty then
    let _ ← Reshape.cascade matcher

/-- A rule that fits heads to matchers. The last argument yields the variables of a head and, if the
two have a common instance, the specialization. -/
def specialize (name : String) (matcher head : Kind) (complaint : String)
    (fit : Operator γ → Operator γ → Option (VarSet × Option Specialization)) :
    PlanRule γ where
  name := name
  start := matcher
  match? := matchHead matcher head
  replace m := do
    match m.first? .head with
    | none => let _ ← Reshape.cascade m.root
    | some h =>
      match fit (← Reshape.operator h) (← Reshape.operator m.root) with
      | none => Reshape.badMatch name complaint
      | some (headVars, s) =>
        if let some s := s then
          bypass h m.root (s.operators headVars)
        cutHead h m.root

def specializeTripleHead : PlanRule γ :=
  specialize "ReplaceGeneratePat" .matchTriple .generate
    "expected a Generate feeding a triple matcher" fun
    | .generate head, .matchTriple pattern =>
      some (head.vars, Specialization.unify? head.items pattern.items)
    | _, _ => none

def specializeAtomHead : PlanRule γ :=
  specialize "GeneratePatConstructPredicate" .matchAtom .constructAtom
    "expected a ConstructPredicate feeding a predicate matcher" fun
    | .constructAtom head, .matchAtom pattern =>
      some (head.vars,
        if head.name = pattern.name ∧ head.arguments.length = pattern.arguments.length then
          Specialization.unify? head.arguments pattern.arguments
        else none)
    | _, _ => none

end PlanRule

end QuadAlgebra
