import QuadAlgebra.Optimization.Matching

/-!
# Rules that fold work into scans

A join of scans is a scan of all their patterns, a renaming above scans can be done in their
patterns, and the removal of duplicates above a single scan can use the index of the scan.
-/

namespace QuadAlgebra

namespace PlanRule

variable {γ : Type}

/-! ## Joins of scans -/

/-- The scan that is the only input in a group and that may be merged into the join. -/
def mergeable (g : Graph γ) (join : OperatorId) (group : Nat × List Input) :
    Option (OperatorId × IndexScan) :=
  match group.2 with
  | [i] => do
    let scan ← (← g.operator? i.source).scan?
    let fedByRoot := (g.inputs i.source).all fun j => j.source == Graph.root && !j.feedback
    if g.feedsOnly i join && scan.source.inMemory && fedByRoot then some (i.source, scan) else none
  | _ => none

/-- Whether all scans read the same graph from the same place. -/
def sameSource : List IndexScan → Bool
  | [] => true
  | s :: rest => rest.all fun t => t.source == s.source && t.graph == s.graph

/-- Some scans as a single one. -/
def mergeScans : List IndexScan → Option IndexScan
  | [] => none
  | s :: rest => some { s with patterns := s.patterns ++ rest.flatMap IndexScan.patterns }

/-- The scan kept by an operator that a match calls a scan. -/
def expectScan (rule : String) (id : OperatorId) : Reshape γ IndexScan := do
  match (← Reshape.operator id).scan? with
  | some s => return s
  | none => Reshape.badMatch rule (idText id ++ " is not an index scan")

/-- Replaces a join of scans of one dataset in memory by one scan. -/
def mergeMemoryScans : PlanRule γ where
  name := "MergeMemoryIndexes"
  start := .join
  match? g id := do
    let groups := g.operandGroups id
    if groups.length < 2 || (g.succeeding id).isEmpty then none
    else
      let scans ← groups.mapM (mergeable g id)
      if sameSource (scans.map (·.2)) then some ((Match.only id).bindAll .scan (scans.map (·.1)))
      else none
  replace m := do
    let ids := m.all .scan
    match mergeScans (← ids.mapM (expectScan "MergeMemoryIndexes")) with
    | none => Reshape.badMatch "MergeMemoryIndexes" "join without operands"
    | some merged =>
      let scan ← Reshape.add (.scan merged)
      Reshape.connect Graph.root scan 0 false
      Reshape.redirectOutputs m.root scan
      Reshape.remove m.root
      ids.forM Reshape.remove

/-! ## Renamings above scans -/

/-- The renaming from sources to targets, if no source has two targets. -/
def inverse (r : Renaming) : Option VarMap :=
  if (OrdSet.ofList r.values).size = r.values.length then
    some (OrdMap.ofList (r.entries.map fun e => (e.2, e.1)))
  else none

/-- Whether a scan binds a target of the renaming that is no source. -/
def bindsTarget (r : Renaming) (scan : IndexScan) : Bool :=
  r.keys.any fun v => scan.vars.contains v && !r.values.contains v

/-- Renames the variables of a scan below a renaming and connects it to the consumers of the
renaming. -/
def renameScan (renameId : OperatorId) (inverse : VarMap) (outputs : List Edge)
    (id : OperatorId) : Reshape γ Unit := do
  let scan ← expectScan "ReplaceVarUnderIndex" id
  Reshape.replaceOperator id (.scan (scan.renamed inverse))
  Reshape.disconnect id renameId
  Reshape.feedAll id outputs

/-- Renames the variables of scans instead of those of their solutions. -/
def renameUnderScans : PlanRule γ where
  name := "ReplaceVarUnderIndex"
  start := .replaceVar
  match? g id :=
    match g.operator? id with
    | some (.replaceVar r) =>
      let inputs := g.inputs id
      let renamable (i : Input) : Bool :=
        match (g.operator? i.source).bind Operator.scan? with
        | some scan => g.feedsOnly i id && !bindsTarget r scan
        | none => false
      if (inverse r).isSome && !inputs.isEmpty && !(g.succeeding id).isEmpty &&
          inputs.all renamable then
        some ((Match.only id).bindAll .scan (inputs.map Input.source))
      else none
    | _ => none
  replace m := do
    match ← Reshape.operator m.root with
    | .replaceVar r =>
      match inverse r with
      | none => Reshape.badMatch "ReplaceVarUnderIndex" "renaming is not invertible"
      | some r' =>
        let outputs ← Reshape.look (·.succeeding m.root)
        (m.all .scan).forM (renameScan m.root r' outputs)
        Reshape.remove m.root
    | _ => Reshape.badMatch "ReplaceVarUnderIndex" (idText m.root ++ " is not a ReplaceVar")

/-! ## Duplicates above a scan -/

/-- Uses the index of a scan to remove duplicates, if nothing but projections, filters and renamings
stands in between. -/
def distinctOverScan : PlanRule γ where
  name := "IndexDistinct"
  start := .distinct
  match? g id := do
    let i ← g.singleInput? id
    let (found, skipped) ←
      g.chain? .producers [.projection, .filter, .ruleFilter, .replaceVar] id
    let _ ← (← g.operator? found).scan?
    if i.feedback || (g.singleConsumer? found).isNone then none
    else some (((Match.only id).bind .scan found).bindAll .skipped skipped)
  replace m := Reshape.replaceOperator m.root .indexDistinct

end PlanRule

end QuadAlgebra
