import QuadAlgebra.Proofs.Planning.Plain
import QuadAlgebra.Proofs.Variables.Copying

/-!
# Bounds of rewritten plans

The variable sets of a plan are right if no operator ever emits a solution outside its bounds
(`Plan.BoundsHold`). That follows from the shape of the plan (`Plan.Fit`), which rules keep: each
reduction of a regular graph leaves a regular graph (`Graph.Reduction.regular`). So once the
variable sets have been computed anew, they are right in whatever a plan of a query or an update has
been rewritten to (`Plan.Fit.rewritten`, `Plan.Fit.bounds_hold`).
-/

namespace QuadAlgebra

/-! ## Reductions -/

namespace Graph

variable {γ : Type} {g g' : Graph γ} {shapes : Shapes} {provesEmpty : IndexScan → Bool}

/-- A cascade leaves no join and no scan without an operand that it has read. -/
theorem kept_of_pruned {ops : OperatorId → Option (Operator γ)} {reads : OperatorId → Input → Prop}
    {gone : List OperatorId} (h : Pruned ops reads gone) {x : OperatorId} {op : Operator γ}
    {i : Input} (hx : x ∉ gone) (hop : ops x = some op) (hkind : op.kind ∈ [.join, .scan, .probe])
    (hi : reads x i) : ∃ j, remainingReads reads gone x j ∧ j.operand = i.operand := by
  have hremovable : op.Removable := by
    simp only [List.mem_cons, List.not_mem_nil, or_false] at hkind
    rcases hkind with he | he | he <;> exact ⟨by simp [he], by simp [he]⟩
  have hrequires : op.requires i.operand = true := by
    cases op with
    | command c => cases c <;> simp [Operator.kind, GraphCommand.kind] at hkind
    | join | scan _ | probe _ => rfl
    | _ => simp [Operator.kind] at hkind
  by_contra hnone
  push Not at hnone
  exact h.fed x ⟨hx, op, i, hop, hremovable, hi, fun j hj hsource =>
    ⟨hrequires, hnone j ⟨hj, hx, hsource⟩⟩⟩

/-- Renamings do not read scans. -/
theorem Regular.not_renameSite (h : g.Regular false shapes) {u : OperatorId} {r : Renaming}
    {r' : VarMap} : ¬ g.RenameSite u r r' := fun hsite => by
  obtain ⟨i, hi⟩ := List.exists_mem_of_ne_nil _ hsite.fed
  have hi := h.linked.mem_inputs.1 hi
  obtain ⟨s, hs, -⟩ := hsite.scans i hi
  have hkind := h.renamed u _ i _ hsite.rename rfl hi hs
  simp [Operator.kind, Operator.deduplicating] at hkind

/-- Whatever a rule makes of a regular graph is regular. -/
theorem Reduction.regular (h : g.Regular false shapes) (hsane : g.Sane)
    (hreduction : g.Reduction provesEmpty g') : ∃ shapes', g'.Regular false shapes' := by
  cases hreduction with
  | pruned u op gone hop huseless hmem hexhausts hwired =>
      have hroot : Graph.root ∉ gone := fun hmem => by
        obtain ⟨op, hop, hremovable⟩ := hexhausts.removable _ hmem
        obtain rfl := Option.some.inj (h.root.symm.trans hop)
        exact hremovable.1 rfl
      refine ⟨shapes, h.thinned hwired ((remaining_of_not_mem hroot).trans h.root)
        (fun x op hop => ⟨op, (remaining_eq_some.1 hop).2, .same op⟩) (fun x i hi => hi.1)
        fun x op i hop hkind hi => ?_⟩
      obtain ⟨hx, hop⟩ := remaining_eq_some.1 hop
      exact kept_of_pruned hexhausts.pruned hx hop hkind hi
  | spliced u hsite hwired =>
      have hsplicing : g.Splicing g' shapes u g.slots.length := ⟨h, hsite, hwired⟩
      exact ⟨shapes, hsplicing.spliced⟩
  | merged u inputs scans scan hsite hmerge hwired =>
      have hmerging : g.Merging g' u inputs scans scan := ⟨h.linked, h.root, hsite, hmerge, hwired⟩
      exact ⟨_, hmerging.merged h⟩
  | specialized u f equalities hop hplain hspecialize hwired =>
      exact ⟨shapes, h.likened hop (.filter f equalities) Kind.noConfusion hwired⟩
  | indexed u hop hwired => exact ⟨shapes, h.likened hop .distinct Kind.noConfusion hwired⟩
  | distributed u op hsite hwired =>
      have hdistributing : g.Distributing g' shapes u op := ⟨h, hsane, hsite, hwired⟩
      exact ⟨_, hdistributing.copied.regular⟩
  | lowered u below op l hsite hwired =>
      have hlowering : g.Lowering g' shapes u below op l := ⟨h, hsane, hsite, hwired⟩
      exact ⟨_, hlowering.copied.regular⟩
  | renamed u r r' hsite hwired => exact absurd hsite h.not_renameSite

end Graph

/-! ## Plans -/

namespace Plan

/-- In all rounds of all evaluations, the solutions of every operator bind the variables that are
certain and no others than those that are possible. -/
def BoundsHold (p : Plan) : Prop :=
  ∀ (src : Source) (limit : Nat) (id : OperatorId) (n : Node Plan), p.graph.node? id = some n →
    ∀ s : Solution, (p.opened src limit).Shows src id s →
      (VarBounds.mk n.certain n.possible).Admits s.keySet

/-- The plan itself, or a plan nested in one of its filters, or in turn in one of that. -/
inductive PartOf (part : Plan) : Plan → Prop
  | self : PartOf part part
  | nested {p : Plan} {id : OperatorId} {op : Operator Plan} {e : Nat × Plan}
      (hop : p.graph.operator? id = some op) (he : e ∈ op.nested) (h : PartOf part e.2) :
      PartOf part p

/-- The variable sets of the plan are what they would be computed to. -/
def Current (p : Plan) : Prop := Graph.updateVariables.runOn p.graph = (.ok (), p.graph)

/-- What a plan may be rewritten to: rules are applied in any order where they match, to the plan or
to plans nested in it, and variable sets are computed anew now and then. -/
inductive Rewritten (provesEmpty : IndexScan → Bool) : Plan → Plan → Prop
  | refl (p : Plan) : Rewritten provesEmpty p p
  | apply {p q : Plan} (h : Rewritten provesEmpty p q) {rule : PlanRule Plan} {id : OperatorId}
      {m : Match} {w : Workspace Plan} (hrule : rule ∈ PlanRule.catalogue provesEmpty)
      (hkind : q.graph.kind? id = some rule.start) (hmatch : rule.match? q.graph id = some m)
      (hrun : (rule.replace m).runOn (.ofGraph q.graph) = (.ok (), w)) :
      Rewritten provesEmpty p ⟨w.graph⟩
  | update {p q : Plan} (h : Rewritten provesEmpty p q) {g : Graph Plan}
      (hrun : Graph.updateVariables.runOn q.graph = (.ok (), g)) : Rewritten provesEmpty p ⟨g⟩
  | nested {p q : Plan} (h : Rewritten provesEmpty p q) {id : OperatorId} {f : Filter Plan}
      {before after : List (Nat × Plan)} {k : Nat} {inner inner' : Plan} {g : Graph Plan}
      (hop : q.graph.operator? id = some (.filter f))
      (hnested : f.nested = before ++ (k, inner) :: after)
      (hinner : Rewritten provesEmpty inner inner')
      (hrun : (Graph.setOperator id
        (.filter { f with nested := before ++ (k, inner') :: after })).runOn
        q.graph = (.ok (), g)) : Rewritten provesEmpty p ⟨g⟩

/-- The graph of the plan is regular, and sane unless it is that of a rule program. The plans nested
in it are no rule programs. -/
inductive Fit : Bool → Plan → Prop
  | intro (rules : Bool) (p : Plan) (shapes : Shapes) (regular : p.graph.Regular rules shapes)
      (sane : rules = false → p.graph.Sane)
      (nested : ∀ id op, p.graph.operator? id = some op → ∀ e ∈ op.nested, Fit false e.2) :
      Fit rules p

namespace Fit

variable {rules : Bool} {p q part : Plan} {provesEmpty : IndexScan → Bool}

/-- What is nested in a fit plan is fit, and no rule program. -/
theorem partOf (h : p.Fit rules) (hpart : part.PartOf p) :
    ∃ rules', (rules' = true → rules = true) ∧ part.Fit rules' := by
  induction hpart generalizing rules with
  | self => exact ⟨rules, id, h⟩
  | nested hop he _ ih =>
      cases h with
      | intro _ _ shapes regular sane nested =>
          obtain ⟨rules', hfalse, hpart⟩ := ih (nested _ _ hop _ he)
          exact ⟨rules', fun hrules => absurd (hfalse hrules) (by decide), hpart⟩

/-- The variable sets of a fit plan are right once they have been computed. -/
theorem bounds_hold (h : p.Fit rules) {g : Graph Plan}
    (hrun : Graph.updateVariables.runOn p.graph = (.ok (), g)) : (⟨g⟩ : Plan).BoundsHold := by
  cases h with
  | intro _ _ shapes regular sane nested =>
      obtain ⟨⟨order, horder⟩, hsame⟩ := Graph.updateVariables_eq_ok hrun
      obtain ⟨bounds, hbounds, hstored⟩ := Graph.updateVariables_bounds hrun
      intro src limit id n hn s hs
      obtain ⟨hcertain, hpossible⟩ := hstored id n hn
      rw [hcertain, hpossible]
      have hwired := Graph.wired_updateVariables (.of_linked regular.linked) _ _ hrun
      have hshaped : g.Shaped shapes := regular.toShaped.congr hwired
      have hbounds' : g.BoundedBy bounds := ⟨fun id op hop => by
        simp only [hsame.inputs]
        exact hbounds.made id op ((hsame.operator? id).symm.trans hop)⟩
      exact hshaped.admits hbounds'
        (Graph.topologicalOrder_spec (hsame.topologicalOrder ▸ horder)) _ hs

theorem sane (h : p.Fit false) : p.graph.Sane := by
  cases h with
  | intro _ _ shapes regular sane nested => exact sane rfl

theorem exists_regular (h : p.Fit false) : ∃ shapes, p.graph.Regular false shapes := by
  cases h with
  | intro _ _ shapes regular sane nested => exact ⟨shapes, regular⟩

/-- What a rule makes of a fit plan is a reduction of it. -/
theorem reduces (h : p.Fit false) {rule : PlanRule Plan} {id : OperatorId} {m : Match}
    {w w' : Workspace Plan} (hw : w.graph = p.graph) (hrule : rule ∈ PlanRule.catalogue provesEmpty)
    (hkind : p.graph.kind? id = some rule.start) (hmatch : rule.match? p.graph id = some m)
    (hrun : (rule.replace m).runOn w = (.ok (), w')) : p.graph.Reduction provesEmpty w'.graph := by
  have hstart : rule.start ∉ Graph.ruleKinds := by
    obtain ⟨shapes, hregular⟩ := h.exists_regular
    obtain ⟨op, hop, he⟩ := PlanRule.exists_operator hkind
    exact he ▸ hregular.plain rfl id op hop
  obtain ⟨_, w₁, hrun₁, hreduction⟩ := PlanRule.catalogue_reduces provesEmpty rule hrule hstart
    w id m (hw ▸ h.sane.orderly) (hw ▸ hkind) (hw ▸ hmatch)
  obtain rfl : w' = w₁ := congrArg Prod.snd (hrun.symm.trans hrun₁)
  exact hw ▸ hreduction

/-- Whatever a rule makes of a fit plan is fit. -/
theorem reduced (h : p.Fit false) {g : Graph Plan} (hreduction : p.graph.Reduction provesEmpty g) :
    (⟨g⟩ : Plan).Fit false := by
  cases h with
  | intro _ _ shapes regular sane nested =>
      obtain ⟨shapes', hregular⟩ := hreduction.regular regular (sane rfl)
      refine .intro _ _ shapes' hregular (fun _ => hreduction.sane (sane rfl))
        fun x op hop e he => ?_
      rcases hreduction.operators hop with ⟨y, hy⟩ | ⟨-, hnone⟩
      · exact nested y op hy e he
      · rw [hnone] at he
        cases he

/-- A rule makes a fit plan of a fit plan, wherever it matches. -/
theorem apply (h : p.Fit false) {rule : PlanRule Plan} {id : OperatorId} {m : Match}
    {w : Workspace Plan} (hrule : rule ∈ PlanRule.catalogue provesEmpty)
    (hkind : p.graph.kind? id = some rule.start) (hmatch : rule.match? p.graph id = some m)
    (hrun : (rule.replace m).runOn (.ofGraph p.graph) = (.ok (), w)) :
    (⟨w.graph⟩ : Plan).Fit false := h.reduced (h.reduces rfl hrule hkind hmatch hrun)

/-- Nothing but the operators and edges matters, and what is nested may be replaced. -/
theorem of_wired (h : p.Fit false) {g : Graph Plan} {ops : OperatorId → Option (Operator Plan)}
    (hwired : g.Wired p.graph.slots.length ops p.graph.Reads) (hroot : ops Graph.root = some .root)
    (hops : ∀ x op', ops x = some op' → ∃ op, p.graph.operator? x = some op ∧ op'.Like op)
    (hnested : ∀ x op, ops x = some op → ∀ e ∈ op.nested, e.2.Fit false) :
    (⟨g⟩ : Plan).Fit false := by
  cases h with
  | intro _ _ shapes regular sane _ =>
      refine .intro _ _ shapes (regular.thinned hwired hroot hops (fun _ _ hi => hi)
        fun _ _ i _ _ hi => ⟨i, hi, rfl⟩) (fun _ => .of_wired hwired hroot (sane rfl).ranks)
          fun x op hop => hnested x op ((hwired.operator? x).symm.trans hop)

theorem graph (h : p.Fit rules) : p.graph.Linked ∧ p.graph.operator? Graph.root = some .root ∧
    ∀ id op, p.graph.operator? id = some op → ∀ e ∈ op.nested, e.2.Fit false := by
  cases h with
  | intro _ _ shapes regular sane nested => exact ⟨regular.linked, regular.root, nested⟩

/-- A fit plan stays fit when its variable sets are computed. -/
theorem updated (h : p.Fit false) {g : Graph Plan}
    (hrun : Graph.updateVariables.runOn p.graph = (.ok (), g)) : (⟨g⟩ : Plan).Fit false := by
  obtain ⟨hlinked, hroot, hnested⟩ := h.graph
  exact h.of_wired (Graph.wired_updateVariables (.of_linked hlinked) _ _ hrun) hroot
    (fun x op hop => ⟨op, hop, .same op⟩) hnested

/-- Whatever a fit plan without rules is rewritten to is fit. -/
theorem rewritten (h : p.Fit false) (hpq : Rewritten provesEmpty p q) : q.Fit false := by
  induction hpq with
  | refl => exact h
  | apply _ hrule hkind hmatch hrun ih => exact (ih h).apply hrule hkind hmatch hrun
  | update _ hrun ih => exact (ih h).updated hrun
  | @nested p q _ id f before after k inner inner' g hop hf _ hrun ih ihinner =>
      obtain ⟨hlinked, hroot, hnested⟩ := (ih h).graph
      obtain ⟨-, hwired⟩ := Graph.wired_setOperator (.of_linked hlinked) _ () g hrun
      have hplans {e : Nat × Plan} (he : e ∈ before ++ (k, inner) :: after) : e.2.Fit false :=
        hnested id _ hop e (show e ∈ f.nested from hf ▸ he)
      refine (ih h).of_wired hwired ?_ (fun x op' hop' => ?_) fun x op' hop' e he => ?_
      · rw [if_neg, hroot]
        rintro rfl
        cases hop.symm.trans hroot
      · split at hop'
        · next hx =>
          obtain rfl := Option.some.inj hop'
          exact ⟨_, hx ▸ hop, .refilter f _⟩
        · exact ⟨op', hop', .same op'⟩
      · split at hop'
        · obtain rfl := Option.some.inj hop'
          rcases List.mem_append.1 he with he | he
          · exact hplans (List.mem_append_left _ he)
          · rcases List.mem_cons.1 he with rfl | he
            · exact ihinner (hplans (List.mem_append_right _ List.mem_cons_self))
            · exact hplans (List.mem_append_right _ (List.mem_cons_of_mem _ he))
        · exact hnested x op' hop' e he

/-- The variable sets of a fit plan without rules can be computed. -/
theorem exists_updateVariables (h : p.Fit false) :
    ∃ g, Graph.updateVariables.runOn p.graph = (.ok (), g) := by
  obtain ⟨_, g, hrun, -⟩ := Graph.runs_updateVariables h.sane.ascends
  exact ⟨g, hrun⟩

end Fit

end Plan

end QuadAlgebra
