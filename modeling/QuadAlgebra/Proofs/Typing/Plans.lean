import QuadAlgebra.Compilation
import QuadAlgebra.Proofs.Semantics.Emission
import QuadAlgebra.Proofs.Typing.Evaluation
import QuadAlgebra.Proofs.Typing.Rules

/-!
# Typed plans

A plan is typed if its graph is typed and has a topological order, and so have all plans that are
nested in its filters. A typed plan is evaluated without a fault of its own
(`Plan.Typed.evaluate_ends_well`), and optimizing it yields a typed plan (`Plan.Typed.optimize`).
-/

namespace QuadAlgebra

/-! ## Graphs and their nested plans -/

namespace Graph

variable {γ δ : Type} {g : Graph γ} {id : OperatorId}

/-- Mapping the nested parts leaves the operators where they are. -/
theorem operator?_mapNested (f : γ → δ) (g : Graph γ) (id : OperatorId) :
    (g.mapNested f).operator? id = (g.operator? id).map fun op =>
      op.withNested (op.nested.map fun e => (e.1, f e.2)) := by
  unfold operator?
  rw [node?_mapNested]
  cases g.node? id <;> rfl

/-- Mapping the nested parts keeps the kinds of the operators. -/
theorem kind?_mapNested (f : γ → δ) (g : Graph γ) (id : OperatorId) :
    (g.mapNested f).kind? id = g.kind? id := by
  rw [kind?, kind?, operator?_mapNested]
  cases g.operator? id with
  | none => rfl
  | some op => exact congrArg some (kind_withNested op _)

/-- Mapping the nested parts keeps the results. -/
theorem results_mapNested (f : γ → δ) (g : Graph γ) : (g.mapNested f).results = g.results := by
  simp only [results, find, ids_mapNested, kind?_mapNested]

/-- A graph whose nested parts become good ones is typed with these. -/
theorem Typed.mapNested {f : γ → δ} {good : δ → Prop} (h : g.Typed fun p => good (f p)) :
    (g.mapNested f).Typed good := by
  have hemits {id : OperatorId} {k : RowKind} (he : g.Emits id k) : (g.mapNested f).Emits id k := by
    refine ⟨(length_mapNested f g).symm ▸ he.lt, fun op hop => ?_⟩
    rw [operator?_mapNested] at hop
    obtain ⟨op', hop', rfl⟩ := Option.map_eq_some_iff.1 hop
    rw [Operator.emits?_withNested]
    exact he.emits op' hop'
  have htakes {id : OperatorId} {k : RowKind} (he : g.Takes id k) : (g.mapNested f).Takes id k := by
    refine ⟨(length_mapNested f g).symm ▸ he.lt, fun op hop => ?_⟩
    rw [operator?_mapNested] at hop
    obtain ⟨op', hop', rfl⟩ := Option.map_eq_some_iff.1 hop
    rw [Operator.accepts_withNested]
    exact he.takes op' hop'
  refine ⟨?_, fun s e he => ?_, fun id op hop => ?_⟩
  · rw [operator?_mapNested, h.root]
    rfl
  · rw [succeeding_mapNested] at he
    obtain ⟨k, hs, ht⟩ := h.edges s e he
    exact ⟨k, hemits hs, htakes ht⟩
  · rw [operator?_mapNested] at hop
    obtain ⟨op', hop', rfl⟩ := Option.map_eq_some_iff.1 hop
    exact (h.covered id op' hop').withNested

/-- Mapping the nested parts keeps the order of the operators. -/
theorem topologicalOrder_mapNested (f : γ → δ) (g : Graph γ) :
    (g.mapNested f).topologicalOrder = g.topologicalOrder :=
  topologicalOrder_congr (succeeding_mapNested f g) (contains_mapNested f g) (length_mapNested f g)

end Graph

/-! ## Plans -/

namespace Plan

/-- A plan is typed when its graph is, has an order, and only has typed plans nested in it. -/
inductive Typed : Plan → Prop
  | intro (p : Plan) (typed : p.graph.Typed fun _ => True)
      (ordered : ∃ order, p.graph.topologicalOrder = .ok order)
      (nested : ∀ id op, p.graph.operator? id = some op → ∀ e ∈ op.nested, Typed e.2) : Typed p

/-- A typed plan has an order. -/
theorem Typed.ordered {p : Plan} (h : p.Typed) : ∃ order, p.graph.topologicalOrder = .ok order := by
  cases h with
  | intro _ typed ordered nested => exact ordered

/-- The nested plans of a typed plan are typed. -/
theorem Typed.graph {p : Plan} (h : p.Typed) : p.graph.Typed Typed := by
  cases h with
  | intro _ typed ordered nested =>
      exact typed.mono fun id op hop e he _ => nested id op hop e he

/-- A typed graph with an order makes a typed plan. -/
theorem Typed.of_graph {p : Plan} (h : p.graph.Typed Typed)
    (hordered : ∃ order, p.graph.topologicalOrder = .ok order) : p.Typed :=
  .intro p (h.mono fun _ _ _ _ _ _ => trivial) hordered fun id op hop _ he =>
    (h.covered id op hop).of_mem he

/-! ## Evaluation -/

/-- Some operator of the plan, or of a plan nested in it, stands for a call of the endpoint. -/
inductive Calls (endpoint : Item) : Plan → Prop
  | here {p : Plan} {id : OperatorId} {pattern : Group} {silent : Bool} :
      p.graph.operator? id = some (.service endpoint pattern silent) → Calls endpoint p
  | nested {p : Plan} {id : OperatorId} {op : Operator Plan} {e : Nat × Plan} :
      p.graph.operator? id = some op → e ∈ op.nested → Calls endpoint e.2 → Calls endpoint p

/-- The errors that are not the fault of a plan: calls of an endpoint that it asks for, and the
limit on rounds. -/
def MayFail (p : Plan) (limit : Nat) (e : Error) : Prop :=
  e = .internal (.unconverged limit) ∨
    ∃ endpoint, p.Calls endpoint ∧ e = .unsupported (.remoteCall endpoint)

/-- A plan may fail wherever a nested one may. -/
theorem MayFail.of_nested {p : Plan} {limit : Nat} {error : Error} {id : OperatorId}
    {op : Operator Plan} {e : Nat × Plan} (hop : p.graph.operator? id = some op)
    (he : e ∈ op.nested) (h : e.2.MayFail limit error) : p.MayFail limit error := by
  rcases h with h | ⟨endpoint, hcalls, h⟩
  · exact .inl h
  · exact .inr ⟨endpoint, .nested hop he hcalls, h⟩

/-- A typed plan evaluates, or fails in one of the ways that it may. -/
theorem Typed.evaluate_ends_well {p : Plan} (h : p.Typed) (src : Source) (limit : Nat) :
    EndsWell (p.evaluate src limit) (fun _ => True) (p.MayFail limit) := by
  induction h with
  | intro p typed ordered nested ih =>
      rw [evaluate_eq]
      refine Graph.Permits.evaluate ⟨?_, fun id endpoint pattern silent hop => ?_⟩ ?_ (.inl rfl)
      · refine Graph.Typed.mapNested (typed.mono fun id op hop e he _ error herror => ?_)
        have hnested := ih id op hop e he
        rw [herror] at hnested
        exact MayFail.of_nested hop he hnested
      · rw [opened, Graph.operator?_mapNested] at hop
        obtain ⟨op, hop, hservice⟩ := Option.map_eq_some_iff.1 hop
        cases op <;> cases hservice
        exact .inr ⟨endpoint, .here hop, rfl⟩
      · rw [opened, Graph.topologicalOrder_mapNested]
        exact ordered

/-! ## Optimization -/

/-- Where a list of outcomes succeeds, each outcome does. -/
theorem mem_of_mapM_ok {α : Type} {l : List (Except Error α)} {as : List α}
    (h : l.mapM id = .ok as) {x : Except Error α} (hx : x ∈ l) : ∃ a, x = .ok a := by
  induction l generalizing as with
  | nil => cases hx
  | cons y rest ih =>
      rw [List.mapM_cons] at h
      cases y with
      | error e => cases h
      | ok a =>
          cases hrest : rest.mapM id with
          | error e => simp [hrest, bind, Except.bind] at h
          | ok as' =>
              rcases List.mem_cons.1 hx with rfl | hx
              · exact ⟨a, rfl⟩
              · exact ih hrest hx

/-- A nested part of an operator is a nested part of the graph. -/
theorem mem_allNested {γ : Type} {g : Graph γ} {id : OperatorId} {op : Operator γ}
    (hop : g.operator? id = some op) {e : Nat × γ} (he : e ∈ op.nested) : e.2 ∈ g.allNested := by
  refine List.mem_flatMap.2 ⟨id, Graph.mem_ids_of_operator? hop, ?_⟩
  rw [hop]
  exact List.mem_map_of_mem he

end Plan

/-- A graph is optimized once all plans nested in it have been: rules are applied to it, and then
its variable sets are computed. -/
theorem Graph.optimize_eq_ok {g : Graph (Except Error Optimized)}
    {rules : List (PlanRule Plan)} {limit : Nat} {o : Optimized}
    (h : g.optimize rules limit = .ok o) :
    (∀ id op, g.operator? id = some op → ∀ e ∈ op.nested, ∃ nested, e.2 = .ok nested) ∧
      ∃ counts g₁, (Graph.applyRules rules limit).runOn
          (g.mapNested fun r => (r.toOption.map Optimized.plan).getD default) = (.ok counts, g₁) ∧
        Graph.updateVariables.runOn g₁ = (.ok (), o.plan.graph) := by
  unfold Graph.optimize at h
  cases hnested : g.allNested.mapM id with
  | error e => simp [hnested, bind, Except.bind] at h
  | ok nested =>
      refine ⟨fun id op hop e he => Plan.mem_of_mapM_ok hnested (Plan.mem_allNested hop he), ?_⟩
      simp only [hnested, bind, Except.bind] at h
      split at h
      · cases h
      · next total htotal =>
        obtain rfl := Except.ok.inj h
        obtain ⟨counts, g₁, happlied, hrest⟩ := Edit.runOn_bind_eq_ok.1 (Prod.ext htotal rfl)
        obtain ⟨_, g₂, hfinish, hdone⟩ := Edit.runOn_bind_eq_ok.1 hrest
        obtain ⟨-, rfl⟩ := Prod.mk.inj hdone
        exact ⟨counts, g₁, happlied, hfinish⟩

namespace Plan

/-- Rules that keep types keep the type of a graph whose nested plans are optimized already. -/
theorem graph_optimize {g : Graph (Except Error Optimized)} {rules : List (PlanRule Plan)}
    {limit : Nat} {o : Optimized} (hrules : ∀ rule ∈ rules, rule.KeepsTypes Typed)
    (hg : g.Typed fun outcome => ∀ o, outcome = .ok o → o.plan.Typed)
    (h : g.optimize rules limit = .ok o) : o.plan.Typed := by
  obtain ⟨hnested, counts, g₁, happlied, hfinish⟩ := Graph.optimize_eq_ok h
  -- nested plans have all been optimized, so none is replaced by a default
  have hstart : (g.mapNested fun r =>
      (r.toOption.map Optimized.plan).getD default).Typed Typed := by
    refine Graph.Typed.mapNested (hg.mono fun id op hop e he hok => ?_)
    obtain ⟨o, ho⟩ := hnested id op hop e he
    rw [ho]
    exact hok o ho
  have h₁ := Graph.ends_applyRules hrules hstart limit counts g₁ happlied
  obtain ⟨h₂, hordered⟩ := Graph.ends_updateVariables () o.plan.graph hfinish
  exact .of_graph (h₂.typed (h₁.typed hstart)) hordered

/-- Rules that keep types keep the type of a plan, nested plans included. -/
theorem Typed.optimize {p : Plan} {rules : List (PlanRule Plan)} {limit : Nat}
    (hrules : ∀ rule ∈ rules, rule.KeepsTypes Typed) (h : p.Typed) {o : Optimized}
    (ho : p.optimize rules limit = .ok o) : o.plan.Typed := by
  induction h generalizing o with
  | intro p typed ordered nested ih =>
      rw [Plan.optimize, Plan.fold_eq] at ho
      refine graph_optimize hrules (Graph.Typed.mapNested ?_) ho
      exact typed.mono fun id op hop e he _ o ho => ih id op hop e he ho

end Plan

end QuadAlgebra
