import QuadAlgebra.Proofs.Planning.Finish
import QuadAlgebra.Proofs.Planning.Segments

/-!
# Filters and bindings over drawings

The existence patterns of a filter have plans of their own, which are evaluated on their own. When
these have the solutions of the patterns, the filter keeps the rows for which its condition holds
by its meaning (`draws_over_filter`). A binding has no existence patterns and computes the meaning
of its expression (`draws_bind`).
-/

namespace QuadAlgebra

variable {src : Source} {limit : Nat} {c c' : Cursor} {d d₁ d' : Draft} {op : Operator Plan}
  {rows : List Solution} {lists : List (List Solution)}

/-! ## Existence patterns -/

/-- A cursor to the result of a plan that has just been begun. -/
theorem ready_result (hd : d.graph = .empty) (form : ResultForm) :
    (Cursor.mk d.size 0).Ready (d.withOperator (.result form)) where
  sound := (sound_of_empty hd).withOperator
  target_lt := by simp
  target_ne := Nat.ne_of_gt (sound_of_empty hd).size_pos
  operand_gt i hi := by
    rw [Draft.inputs_withOperator, (sound_of_empty hd).inputs_eq_nil (Nat.le_refl _)] at hi
    exact absurd hi List.not_mem_nil

theorem nestedPlan_runOn (vars : VarSet) (body : DrawInto) (d : Draft) :
    (nestedPlan vars body).runOn d =
      match (do
          let result ← Draw.add (.result (.select vars.toList))
          body ⟨result, 0⟩ : Draw Unit).runOn d.cleared with
      | (.ok (), inner) =>
        ((Graph.updateVariables.runOn inner.graph).1.map fun _ =>
            ⟨(Graph.updateVariables.runOn inner.graph).2⟩,
          { d with nextVar := inner.nextVar, nextSlot := inner.nextSlot })
      | (.error e, inner) => (.error e, { d with nextSlot := inner.nextSlot }) := by
  have hread : ∀ f : Draft → StateM Draft (Except Error Plan),
      Edit.runOn (ExceptT.mk (do let outer ← StateT.get; f outer)) d = f d d := fun f => rfl
  rw [nestedPlan, hread]
  rcases Edit.runOn (do
    let result ← Draw.add (.result (.select vars.toList))
    body ⟨result, 0⟩ : Draw Unit) d.cleared with ⟨_ | _, inner⟩
  · rfl
  · rfl

/-- A solution that binds shown variables only is shown as it is. -/
theorem shownSolutions_eq {vars : List Variable} {scope : VarSet}
    (hsub : ∀ v, v ∈ scope → v ∈ vars) (h : ∀ s ∈ rows, s.BindsOnly scope) :
    shownSolutions vars rows = rows := by
  rw [shownSolutions]
  split
  · rfl
  · conv_rhs => rw [← List.map_id rows]
    refine List.map_congr_left fun s hs => Solution.eq_of_get? fun v => ?_
    rw [OrdMap.get?_filter]
    cases hv : s.get? v with
    | none => simp [hv]
    | some t => simp [hv, hsub v (h s hs v t hv)]

/-- A drawing of a plan that leaves the draft around it alone and has the solutions of a group. -/
def PlansFor (src : Source) (limit : Nat) (graph : Option Term) (draw : Draw Plan) (g : Group) :
    Prop :=
  ∀ (d d' : Draft) (plan : Plan), draw.runOn d = (.ok plan, d') →
    d'.graph = d.graph ∧ d.nextVar ≤ d'.nextVar ∧
      ∃ e, plan.evaluate src limit = .ok e ∧ e.solutions.Perm (g.solutions src graph)

theorem plansFor_nestedPlan {graph : Option Term} {g : Group} {vars : VarSet} {body : DrawInto}
    (hlimit : 0 < limit) (hcore : g.isCore = true) (hvars : ∀ v, v ∈ g.scope → v ∈ vars)
    (hbody : Draws src limit body (g.solutions src graph)) :
    PlansFor src limit graph (nestedPlan vars body) g := by
  intro d d' plan h
  rw [nestedPlan_runOn] at h
  split at h
  · next inner hrun =>
    obtain ⟨hplan, rfl⟩ := Prod.mk.inj h
    obtain ⟨result, d₁, hadd, hrun⟩ := Edit.runOn_bind_eq_ok.1 hrun
    rw [Draw.add_runOn] at hadd
    obtain ⟨hresult, rfl⟩ := Prod.mk.inj hadd
    obtain rfl := Except.ok.inj hresult
    have hempty : d.cleared.graph = .empty := rfl
    have hfed := hbody _ _ _ (ready_result hempty _) hrun
    cases hfinish : Graph.updateVariables.runOn inner.graph with
    | mk outcome G =>
        rw [hfinish] at hplan
        cases outcome with
        | error e => cases hplan
        | ok u =>
            obtain rfl := Except.ok.inj hplan
            obtain ⟨found, hperm, heval⟩ := evaluate_finished hempty hfed hfinish hlimit
            refine ⟨rfl, hfed.ext.nextVar_le, _, heval, ?_⟩
            have hbinds : ∀ s ∈ found, s.BindsOnly g.scope := fun s hs =>
              g.binds_of_mem_solutions graph hcore s (hperm.mem_iff.1 hs)
            rw [shownSolutions_eq (fun v hv => OrdSet.mem_toList.2 (hvars v hv)) hbinds]
            exact hperm
  · cases h

theorem plansFor_mapM {graph : Option Term} {draws : List (Draw Plan)} {patterns : List Group}
    (hdraws : List.Forall₂ (PlansFor src limit graph) draws patterns) {plans : List Plan}
    (h : (draws.mapM id).runOn d = (.ok plans, d')) :
    d'.graph = d.graph ∧ d.nextVar ≤ d'.nextVar ∧
      List.Forall₂ (fun plan g => ∃ e, plan.evaluate src limit = .ok e ∧
        e.solutions.Perm (Group.solutions src graph g)) plans patterns := by
  induction hdraws generalizing d plans with
  | nil =>
      obtain ⟨hplans, rfl⟩ := Prod.mk.inj h
      obtain rfl := Except.ok.inj hplans
      exact ⟨rfl, Nat.le_refl _, .nil⟩
  | cons hdraw _ ih =>
      rw [List.mapM_cons] at h
      obtain ⟨plan, d₁, hplan, h⟩ := Edit.runOn_bind_eq_ok.1 h
      obtain ⟨rest, d₂, hrest, h⟩ := Edit.runOn_bind_eq_ok.1 h
      obtain ⟨hplans, rfl⟩ := Prod.mk.inj h
      obtain rfl := Except.ok.inj hplans
      obtain ⟨hgraph, hvar, heval⟩ := hdraw d d₁ plan hplan
      obtain ⟨hgraph', hvar', hall⟩ := ih hrest
      exact ⟨hgraph'.trans hgraph, Nat.le_trans hvar hvar', .cons heval hall⟩

/-! ## Filters -/

theorem lookup_zipIdx {α : Type} (l : List α) (n k : Nat) :
    ((l.zipIdx n).map fun p => (p.2, p.1)).lookup (n + k) = l[k]? := by
  induction l generalizing n k with
  | nil => rfl
  | cons a rest ih =>
      rw [List.zipIdx_cons, List.map_cons, List.lookup_cons]
      cases k with
      | zero => simp
      | succ k =>
          have hne : (n + (k + 1) == n) = false := by simp
          have hnext : n + (k + 1) = n + 1 + k := by omega
          rw [hne, hnext]
          exact ih (n + 1) k

/-- The condition of a filter with plans for its existence patterns. -/
def filterOver (e : Expression) (plans : List Plan) (slot : Option FilterSlot) : Operator Plan :=
  .filter ⟨e, plans.zipIdx.map fun (plan, place) => (place, plan), slot⟩

section FilterOver

variable {graph : Option Term} {e : Expression} {plans : List Plan} {slot : Option FilterSlot}

/-- What a filter emits depends on the meaning of its condition. -/
theorem emit_filterOver (hplans : List.Forall₂ (fun plan g => ∃ ev,
      Plan.evaluate src limit plan = .ok ev ∧ ev.solutions.Perm (Group.solutions src graph g))
      plans e.existencePatterns) (id : OperatorId) (l : List (Nat × List Solution)) :
    ((filterOver e plans slot).opened src limit).emit src id (solutionOperands l) =
      .ok (((l.flatMap Prod.snd).filter fun row =>
        ((e.meaning src graph row).bind Term.effectiveBool?).getD false).map .solution) := by
  obtain ⟨found, houtcomes, hfound⟩ : ∃ found : List (List Solution),
      plans.map (fun plan => (plan.evaluate src limit).map Evaluation.solutions) =
        found.map .ok ∧ FoundFor src graph found e.existencePatterns := by
    generalize e.existencePatterns = patterns at hplans ⊢
    induction hplans with
    | nil => exact ⟨[], rfl, .nil⟩
    | cons hplan _ ih =>
        obtain ⟨ev, hev, hperm⟩ := hplan
        obtain ⟨found, houtcomes, hfound⟩ := ih
        refine ⟨ev.solutions :: found, ?_, .cons hperm hfound⟩
        rw [List.map_cons, List.map_cons, houtcomes, hev]
        rfl
  have hnested : nestedSolutions ((plans.map fun plan =>
      (plan.evaluate src limit).map Evaluation.solutions).zipIdx.map fun p => (p.2, p.1)) 0
        e.existencePatterns = .ok found := by
    refine nestedSolutions_eq 0 hfound.length_eq fun i hi => ?_
    rw [lookup_zipIdx, houtcomes]
    simp [hi]
  have hopened : (filterOver e plans slot).opened src limit = .filter ⟨e,
      (plans.map fun plan => (plan.evaluate src limit).map Evaluation.solutions).zipIdx.map
        fun p => (p.2, p.1), slot⟩ := by
    simp [filterOver, Operator.opened, Operator.withNested, Operator.nested, List.zipIdx_map,
      Function.comp_def]
  rw [hopened, Operator.emit_filter hnested]
  congr 3
  funext row
  rw [Expression.holds, e.value_eq_meaning found hfound]

/-- Attaching a filter plans its existence patterns, hands out a slot and attaches an operator. -/
theorem attachFilter_eq_ok {p : Planner} {nested : List (Draw Plan)}
    (h : (p.attachFilter e nested c).runOn d = (.ok c', d')) :
    ∃ plans d₁, (nested.mapM id).runOn d = (.ok plans, d₁) ∧
      (c.attach (filterOver e plans (some ⟨p.evaluator, d₁.nextSlot⟩))).runOn
        { d₁ with nextSlot := d₁.nextSlot + 1 } = (.ok c', d') := by
  rw [Planner.attachFilter] at h
  obtain ⟨plans, d₁, hplans, h⟩ := Edit.runOn_bind_eq_ok.1 h
  refine ⟨plans, d₁, hplans, ?_⟩
  by_cases haggregate : e.hasAggregate = true
  · rw [if_pos haggregate] at h
    cases h
  · rw [if_neg haggregate] at h
    exact h

/-- A filter on top of a drawing. -/
theorem draws_over_filter {p : Planner} {nested : List (Draw Plan)} {draw : DrawInto}
    (hnested : List.Forall₂ (PlansFor src limit graph) nested e.existencePatterns)
    (hdraw : Draws src limit draw rows) :
    Draws src limit (fun c => do draw (← p.attachFilter e nested c)) (rows.filter fun row =>
      ((e.meaning src graph row).bind Term.effectiveBool?).getD false) := by
  intro c d d' hc h
  obtain ⟨c', d₁, hattach, hrun⟩ := Edit.runOn_bind_eq_ok.1 h
  obtain ⟨plans, d₂, hplans, hattach⟩ := attachFilter_eq_ok hattach
  obtain ⟨hgraph, hvar, hall⟩ := plansFor_mapM hnested hplans
  have hready : c.Ready { d₂ with nextSlot := d₂.nextSlot + 1 } := hc.of_graph_eq hgraph
  obtain ⟨rfl, -, -, hready', -, -⟩ := attach_eq_ok hready hattach
  have hfed := hdraw _ d₁ d' hready' hrun
  refine (Fed.over hready hattach hfed (fun id l => ⟨_, emit_filterOver hall id l⟩)
    (by simp [filterOver, Operator.kind]) ?_).of_graph_eq hgraph hvar
  exact Operator.yields_one (fun h => h.filter _) fun id l => emit_filterOver hall id l

end FilterOver

/-! ## Bindings and constant graphs -/

/-- A binding on top of a segment. Its expression has no existence patterns, so the value is the
meaning. -/
theorem draws_bind {e : Expression} {target : Variable} {scope : VarSet} {graph : Option Term}
    {draw : DrawInto} (hdraw : Draws src limit draw rows) :
    Draws src limit (fun c => do
      if scope.contains target then
        Draw.malformed (.bindTargetInScope target)
      if e.hasExistence then
        Draw.unsupported .existenceInBind
      let node ← c.attach (.bind target e)
      draw node) ((Element.bind e target).extend src graph rows) := by
  intro c d d' hc h
  dsimp only at h
  by_cases htarget : scope.contains target = true
  · rw [if_pos htarget] at h
    cases h
  by_cases hexistence : e.hasExistence = true
  · rw [if_neg htarget, if_pos hexistence] at h
    cases h
  rw [if_neg htarget, if_neg hexistence] at h
  have hpatterns : e.existencePatterns = [] := by simpa [Expression.hasExistence] using hexistence
  have hvalues : rows.map (bindValue target e) = (Element.bind e target).extend src graph rows := by
    rw [Element.extend]
    refine List.map_congr_left fun row _ => ?_
    have hmeaning : e.value row [] = e.meaning src graph row :=
      e.value_eq_meaning [] (hpatterns ▸ .nil)
    cases hbound : e.meaning src graph row with
    | some t => simp [bindValue, hmeaning, hbound]
    | none => simp [bindValue, hmeaning, hbound]
  have hover : Draws src limit (fun c => do draw (← c.attach (.bind target e))) _ :=
    draws_over_one hdraw (fun id l => ⟨_, Operator.emit_bind target e⟩) (by simp [Operator.kind])
    (Operator.yields_one (fun h => h.map _) fun id l => Operator.emit_bind target e)
  exact hvalues ▸ hover c d d' hc h

theorem draws_graph {p : Planner} {name : String} {draw : DrawInto}
    (hdraw : Draws src limit draw rows) :
    Draws src limit (fun c => do
      Planner.require p.config.capabilities.namedGraphs name
      draw c) rows := by
  intro c d d' hc h
  dsimp only at h
  by_cases henabled : p.config.capabilities.namedGraphs = true
  · rw [Planner.require, if_pos henabled] at h
    exact hdraw c d d' hc h
  · rw [Planner.require, if_neg henabled] at h
    cases h

end QuadAlgebra
