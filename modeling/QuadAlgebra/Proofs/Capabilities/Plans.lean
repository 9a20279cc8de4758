import QuadAlgebra.Proofs.Optimization.Disabled
import QuadAlgebra.Proofs.Variables.Rewriting

/-!
# Plans that an evaluator can run

An evaluator that knows one graph only can run operators that name none, and services and windows
need abilities of their own (`Capabilities.Allows`). A plan is within the capabilities of an
evaluator if all its operators are, and all those of the plans nested in it (`Plan.Within`).
Optimizing such a plan yields such a plan, whatever the rules are (`Plan.Within.optimize`): rules
hand down to the operators that they make whatever is allowed.
-/

namespace QuadAlgebra

variable {γ : Type} {c : Capabilities}

/-! ## Operators -/

/-- The command concerns no named graph, unless it concerns all graphs there are. -/
def GraphCommand.OnOneGraph : GraphCommand → Prop
  | .load _ destination _ => destination = none
  | .create _ _ => False
  | .clear target _ | .drop target _ => target = .default ∨ target = .all

/-- The operator reads and writes no graph by its name. -/
def Operator.OnOneGraph : Operator γ → Prop
  | .scan s => s.graph = none
  | .probe graph => graph = none
  | .construct template => ∀ q ∈ template, q.graph = none
  | .command c => c.OnOneGraph
  | _ => True

/-- An evaluator with the capabilities can run the operator. -/
structure Capabilities.Allows (c : Capabilities) (op : Operator γ) : Prop where
  graphs : c.namedGraphs = false → op.OnOneGraph
  federation : c.federation = false → op.kind ≠ .service
  streaming : c.streaming = false → op.kind ≠ .window

namespace Capabilities

/-- The kinds of operators that need an ability, depending on what they name. -/
def gated : List Kind :=
  [.scan, .probe, .construct, .load, .clear, .create, .drop, .service, .window]

theorem allows_of_kind {op : Operator γ} (h : op.kind ∉ gated) : c.Allows op := by
  refine ⟨fun _ => ?_, fun _ hkind => h (by simp [gated, hkind]),
    fun _ hkind => h (by simp [gated, hkind])⟩
  cases op with
  | command change =>
      cases change <;> simp [gated, Operator.kind, GraphCommand.kind] at h
  | scan | probe | construct => simp [gated, Operator.kind] at h
  | _ => trivial

theorem allows_of_onOneGraph {op : Operator γ} (h : c.namedGraphs = false → op.OnOneGraph)
    (hkind : op.kind ∉ [.service, .window]) : c.Allows op :=
  ⟨h, fun _ he => hkind (by simp [he]), fun _ he => hkind (by simp [he])⟩

theorem allows_scan {s : IndexScan} :
    c.Allows (.scan s : Operator γ) ↔ (c.namedGraphs = false → s.graph = none) :=
  ⟨Allows.graphs, fun h => allows_of_onOneGraph h (by simp [Operator.kind])⟩

/-- What an evaluator is allowed is handed down by rules. -/
theorem allows_handedDown : Operator.HandedDown fun op : Operator γ => c.Allows op where
  merged {scans scan} h hmerge := by
    cases scans with
    | nil => cases hmerge
    | cons s rest =>
        obtain rfl := Option.some.inj hmerge
        have hs := allows_scan.1 (h s List.mem_cons_self)
        exact allows_scan.2 hs
  renamed {scan} r h := allows_scan.2 fun hnone => by
    rw [IndexScan.renamed, allows_scan.1 h hnone]
    rfl
  looking op hkind := allows_of_kind fun hgated => by
    revert hkind hgated
    cases op.kind <;> decide

/-- What is nested in an operator does not matter. -/
theorem Allows.withNested {δ : Type} {op : Operator γ} (h : c.Allows op)
    (nested : List (Nat × δ)) : c.Allows (op.withNested nested) := by
  refine ⟨fun hnone => ?_, fun hnone => ?_, fun hnone => ?_⟩
  · have := h.graphs hnone
    cases op <;> exact this
  · exact kind_withNested op nested ▸ h.federation hnone
  · exact kind_withNested op nested ▸ h.streaming hnone

end Capabilities

/-! ## Plans -/

/-- The operators of the plan and of all plans nested in it are allowed. -/
inductive Plan.Within (c : Capabilities) : Plan → Prop
  | intro (p : Plan) (allowed : p.graph.Only fun op => c.Allows op)
      (nested : ∀ id op, p.graph.operator? id = some op → ∀ e ∈ op.nested, Within c e.2) :
      Within c p

/-- The operator is allowed, and so are all operators of the plans nested in it. -/
structure Operator.Within (c : Capabilities) (op : Operator Plan) : Prop where
  allowed : c.Allows op
  nested : ∀ e ∈ op.nested, e.2.Within c

theorem Operator.Within.of_allows {op : Operator Plan} (h : c.Allows op)
    (hnested : op.nested = []) : op.Within c :=
  ⟨h, fun _ he => by rw [hnested] at he; cases he⟩

theorem Operator.within_handedDown : HandedDown (Operator.Within c) where
  merged h hmerge :=
    .of_allows (Capabilities.allows_handedDown.merged (fun s hs => (h s hs).allowed) hmerge) rfl
  renamed r h := .of_allows (Capabilities.allows_handedDown.renamed r h.allowed) rfl
  looking op hkind := .of_allows (Capabilities.allows_handedDown.looking op hkind) <| by
    cases op with
    | filter => simp [Operator.kind] at hkind
    | _ => rfl

theorem Graph.only_within_mapNested {f : γ → Plan} {g : Graph γ}
    (h : ∀ id op, g.operator? id = some op → c.Allows op ∧ ∀ e ∈ op.nested, (f e.2).Within c) :
    (g.mapNested f).Only (Operator.Within c) := by
  intro id op hop
  rw [operator?_mapNested] at hop
  obtain ⟨op₀, hop₀, rfl⟩ := Option.map_eq_some_iff.1 hop
  obtain ⟨hallowed, hnested⟩ := h id op₀ hop₀
  refine ⟨hallowed.withNested _, fun e he => ?_⟩
  rw [Operator.nested_withNested_map] at he
  obtain ⟨e₀, he₀, rfl⟩ := List.mem_map.1 he
  exact hnested e₀ he₀

namespace Plan

theorem within_iff {p : Plan} : p.Within c ↔ p.graph.Only (Operator.Within c) := by
  constructor
  · rintro ⟨p, allowed, nested⟩
    exact fun id op hop => ⟨allowed id op hop, nested id op hop⟩
  · exact fun h => ⟨p, fun id op hop => (h id op hop).allowed,
      fun id op hop => (h id op hop).nested⟩

/-- Every part of the plan is within the capabilities. -/
theorem Within.partOf {p part : Plan} (h : p.Within c) (hpart : part.PartOf p) : part.Within c := by
  induction hpart with
  | self => exact h
  | nested hop he _ ih => exact ih ((within_iff.1 h _ _ hop).nested _ he)

/-- Rules keep a plan within the capabilities of an evaluator. -/
theorem Within.optimize {p : Plan} {provesEmpty : IndexScan → Bool} {rules : List (PlanRule Plan)}
    {limit : Nat} {o : Optimized} (hrules : ∀ rule ∈ rules, rule ∈ PlanRule.catalogue provesEmpty)
    (h : p.Within c) (ho : p.optimize rules limit = .ok o) : o.plan.Within c := by
  induction h generalizing o with
  | intro p allowed nested ih =>
      rw [Plan.optimize, Plan.fold_eq] at ho
      obtain ⟨hnested, counts, g₁, happlied, hfinish⟩ := Graph.optimize_eq_ok ho
      have hstart := Graph.only_within_mapNested
        (g := p.graph.mapNested (·.fold (Graph.optimize rules limit)))
        (f := fun r => (r.toOption.map Optimized.plan).getD default) (c := c) fun id op hop => ?_
      · have happlied := Graph.applyRules_keeps
          (Workspace.keptBySteps_only Operator.within_handedDown) (fun _ h => h) (fun _ h => h)
          hrules limit _ hstart counts g₁ happlied
        exact within_iff.2 (happlied.congr (Graph.updateVariables_eq_ok hfinish).2.operator?)
      · have hresults := hnested id op hop
        rw [Graph.operator?_mapNested] at hop
        obtain ⟨op₀, hop₀, rfl⟩ := Option.map_eq_some_iff.1 hop
        rw [Operator.nested_withNested_map] at hresults ⊢
        refine ⟨(allowed id op₀ hop₀).withNested _, fun e he => ?_⟩
        obtain ⟨o, ho⟩ := hresults e he
        obtain ⟨e₀, he₀, rfl⟩ := List.mem_map.1 he
        have hplan := ih id op₀ hop₀ e₀ he₀ ho
        rw [ho]
        exact hplan

end Plan

end QuadAlgebra
