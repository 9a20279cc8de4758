import QuadAlgebra.Config
import QuadAlgebra.Optimization.Filters
import QuadAlgebra.Optimization.Removal
import QuadAlgebra.Optimization.Scans
import QuadAlgebra.Optimization.Specialization
import QuadAlgebra.Optimization.Splitting

/-!
# Rules to a fixpoint

The rules stand in a fixed order. A pass tries each of them at every operator at which it may start,
and passes are repeated until one changes nothing.
-/

namespace QuadAlgebra

/-! ## The catalogue -/

namespace PlanRule

/-- All rules, in the order in which a pass tries them. -/
def catalogue {γ : Type} (provesEmpty : IndexScan → Bool) : List (PlanRule γ) :=
  [removeEmptyScan provesEmpty, removeIdleTemplate, removeIdleAtomHead, removeIdleTripleHead,
    splitTripleHead, splitAtomMatcher, splitAtomHead, specializeTripleHead, specializeAtomHead,
    spliceUnion, mergeMemoryScans, specializeFilter, pushFilter, pushRuleFilter, renameUnderScans,
    distinctOverScan]

end PlanRule

/-- The rules that a configuration allows. -/
def OptimizerConfig.rules {γ : Type} (c : OptimizerConfig) (provesEmpty : IndexScan → Bool) :
    List (PlanRule γ) :=
  (PlanRule.catalogue provesEmpty).filter fun r => c.allows r.name

/-! ## Counts -/

/-- What the rules have done. -/
structure RuleCounts where
  /-- The number of passes, with the last one that changed nothing. -/
  passes : Nat
  /-- How often each rule was applied. -/
  applications : OrdMap String Nat
deriving DecidableEq

namespace RuleCounts

def zero : RuleCounts := ⟨0, ∅⟩

def count (c : RuleCounts) (rule : String) : Nat := (c.applications.get? rule).getD 0

def total (c : RuleCounts) : Nat := c.applications.values.foldl (· + ·) 0

/-- Counts more applications of a rule. -/
def addApplications (c : RuleCounts) (rule : String) (n : Nat) : RuleCounts :=
  { c with applications := c.applications.insert rule (c.count rule + n) }

/-- Counts a pass with the names of the rules that it applied. -/
def addPass (c : RuleCounts) (applied : List String) : RuleCounts :=
  { applied.foldl (fun c rule => c.addApplications rule 1) c with passes := c.passes + 1 }

/-- The counts of two runs together. -/
def add (c d : RuleCounts) : RuleCounts :=
  { d.applications.entries.foldl (fun c (rule, n) => c.addApplications rule n) c with
    passes := c.passes + d.passes }

instance : Add RuleCounts := ⟨add⟩

end RuleCounts

/-! ## Passes -/

namespace Reshape

variable {γ : Type}

/-- Applies a rule at an operator if it matches there. Returns the name of the rule if it did. -/
def tryAt (rule : PlanRule γ) (id : OperatorId) : Reshape γ (List String) := do
  let g := (← get).graph
  if g.kind? id != some rule.start then
    return []
  match rule.match? g id with
  | none => return []
  | some m => do
    rule.replace m
    refresh
    return [rule.name]

/-- Tries a rule at all operators that the index lists under its kind when the rule has its turn. -/
def tryRule (rule : PlanRule γ) : Reshape γ (List String) := do
  let candidates := (← get).index.candidates rule.start
  return (← candidates.mapM (tryAt rule)).flatten

/-- Tries all rules once. Returns the names of those that were applied, once per application. -/
def pass (rules : List (PlanRule γ)) : Reshape γ (List String) := do
  return (← rules.mapM tryRule).flatten

/-- Passes until one applies no rule. -/
def passes (rules : List (PlanRule γ)) (limit : Nat) :
    Nat → RuleCounts → Reshape γ RuleCounts
  | 0, _ => Edit.fault (.passLimit limit)
  | left + 1, counts => do
    let applied ← pass rules
    let counts := counts.addPass applied
    if applied.isEmpty then return counts
    else passes rules limit left counts

/-- Applies rules in at most the given number of passes. -/
def toFixpoint (rules : List (PlanRule γ)) (limit : Nat) : Reshape γ RuleCounts := do
  if rules.isEmpty then
    return .zero
  refresh
  passes rules limit limit .zero

end Reshape

/-- Applies rules to a graph until none matches any more. The index is made for the occasion. -/
def Graph.applyRules {γ : Type} (rules : List (PlanRule γ)) (limit : Nat) :
    Edit (Graph γ) RuleCounts := ExceptT.mk do
  let (outcome, w) := (Reshape.toFixpoint rules limit).runOn (.ofGraph (← StateT.get))
  set w.graph
  return outcome

end QuadAlgebra
