import QuadAlgebra.Proofs.Modifiers.Schedules
import QuadAlgebra.Proofs.Updates.Operations

/-!
# Solutions of selections

The plan of a selection is a stack of operators above a copy of the plan that its pattern has on its
own. What arrives at the lowest of these operators is passed on, from one to the next, up to the
result (`Draft.Stacked.evaluate`), which shows all of it. So the solutions of a selection are those
that its modifiers make of the solutions of its pattern (`Query.solutions_prepare`).
-/

namespace QuadAlgebra

/-! ## Rows of a typed plan -/

section Typed

variable {G : Graph Plan} {src : Source} {limit : Nat} {previous last : Assignment}

theorem Graph.Typed.permits (h : G.Typed Plan.Typed) :
    (Plan.opened ⟨G⟩ src limit).Permits fun _ => True where
  typed := Graph.Typed.mapNested (h.mono fun _ _ _ _ _ _ _ _ => trivial)
  service _ _ _ _ _ := trivial

theorem Graph.Permits.rowsTyped_of_reached {g : Graph Outcome} {allowed : Error → Prop}
    (h : g.Permits allowed) {order : List OperatorId} (horder : ∀ id ∈ order, id ∈ g.ids)
    {a : Assignment} (ha : g.Reached src order a) : g.RowsTyped a := by
  induction ha with
  | start => exact rowsTyped_nil
  | @next previous _ _ hround ih =>
      have hends : EndsWell (g.round src g.loopMembers order previous) g.RowsTyped allowed :=
        h.round horder ih
      rw [hround] at hends
      exact hends

/-- What arrives at an operator that reads solutions are solutions. -/
theorem Graph.Concludes.reads_solutions
    (h : (Plan.opened ⟨G⟩ src limit).Concludes src previous last) (htyped : G.Typed Plan.Typed)
    {id : OperatorId} {op : Operator Plan} (hop : G.operator? id = some op)
    (haccepts : op.accepts = (· == .solution)) :
    ∃ l, (Plan.opened ⟨G⟩ src limit).operandRows previous last id = solutionOperands l := by
  obtain ⟨order, horder, hreached, hround⟩ := h
  have hids : ∀ id ∈ order, id ∈ (Plan.opened ⟨G⟩ src limit).ids := fun id hid =>
    ((Graph.topologicalOrder_spec horder).mem_iff id).1 hid
  have hpermits : (Plan.opened ⟨G⟩ src limit).Permits fun _ => True := htyped.permits
  have hread := hpermits.operandRows (hpermits.rowsTyped_of_reached hids hreached)
    (hpermits.rowsTyped_of_reached hids (hreached.next hround))
    (by rw [operator?_opened, hop]; rfl)
  refine solutionOperands_of_forall fun o ho => ?_
  obtain ⟨l, hl⟩ := expectSolutions_ok id fun row hrow => by
    have hkind := hread o ho row hrow
    rw [Operator.accepts_withNested, haccepts] at hkind
    exact beq_iff_eq.1 hkind
  exact ⟨l, eq_map_of_expectSolutions hl⟩

end Typed

/-! ## Stacks in finished plans -/

/-- All operators of a selection read solutions. -/
theorem Arrangement.Of.accepts {a : Arrangement} {first : Nat} {s : Selection} {m : Modifiers}
    {nested : List (List (Draw Plan))} (h : a.Of first s m nested) (d : Duplicates) :
    ∀ op ∈ a.operators d m, op.accepts = (· == .solution) := by
  have hoption {α : Type} {x : Option α} {f : α → Operator Plan}
      (hf : ∀ a, (f a).accepts = (· == .solution)) :
      ∀ op ∈ (x.map f).toList, op.accepts = (· == .solution) := fun op hop => by
    obtain ⟨a, -, rfl⟩ := Option.map_eq_some_iff.1 (Option.mem_toList.1 hop)
    exact hf a
  have hbind {bindings : List Binding} :
      ∀ op ∈ Planner.bindOperators bindings, op.accepts = (· == .solution) := fun op hop =>
    (Planner.bindOperators_onSolutions bindings op hop).1.1
  have hfilter : ∀ op ∈ a.filters, op.accepts = (· == .solution) := fun op hop => by
    obtain ⟨c, -, plans, slot, d, d', -, rfl⟩ := exists_of_forall₂ h.filters.flip hop
    rfl
  simp only [operators, above, grouping, List.forall_mem_append]
  refine ⟨⟨⟨⟨⟨⟨⟨hoption fun _ => rfl, hoption fun _ => rfl⟩, ?_⟩, hoption fun _ => rfl⟩,
    ?_⟩, hbind⟩,
    hfilter⟩, ?_, hbind⟩
  all_goals
    intro op hop
    split at hop
    all_goals first
      | exact absurd hop List.not_mem_nil
      | exact List.mem_singleton.1 hop ▸ rfl

namespace Draft.Stacked

variable {d : Draft} {form : ResultForm} {ops : List (Operator Plan)} {E : Graph Plan}
  {src : Source} {limit : Nat} {previous last : Assignment} {rows : List Solution}

section Reading

variable (hd : d.Stacked form ops) (haccepts : ∀ op ∈ ops, op.accepts = (· == .solution))
  (hform : (Operator.result form : Operator Plan).accepts = (· == .solution))
  (hop : ∀ k : Nat, k < ops.length + 2 → E.operator? k = d.graph.operator? k)
  (htyped : E.Typed Plan.Typed) (hlast : (Plan.opened ⟨E⟩ src limit).Concludes src previous last)

include hd haccepts hform hop htyped hlast

/-- The operators of a stack and its result read solutions. -/
theorem reads_solutions {k : Nat} (hk : k ≤ ops.length) : ∃ l,
    (Plan.opened ⟨E⟩ src limit).operandRows previous last (k + 1) = solutionOperands l := by
  cases k with
  | zero =>
      refine hlast.reads_solutions htyped ?_ hform
      rw [hop 1 (by omega), hd.result]
  | succ k =>
      have hmem : ops[k]? = some ops[k] := List.getElem?_eq_getElem hk
      refine hlast.reads_solutions htyped ?_ (haccepts ops[k] (List.getElem_mem hk))
      rw [hop (k + 2) (by omega), hd.operator?, hmem]

/-- What arrives at the lowest operator of a stack is passed on up to its result. -/
theorem sends (hinputs : ∀ k : Nat, k ≤ ops.length → E.inputs k = d.graph.inputs k)
    (hrespond : ∀ (k : Nat) op, k < ops.length → E.operator? (k + 2) = some op →
      (op.opened src limit).emit src (k + 2)
        ((Plan.opened ⟨E⟩ src limit).operandRows previous last (k + 2)) = .ok (last.rows (k + 2)))
    (hrows : ((Plan.opened ⟨E⟩ src limit).operandRows previous last (ops.length + 1)).rows =
      rows.map .solution) :
    ∃ out : List Solution, ((Plan.opened ⟨E⟩ src limit).operandRows previous last 1).rows =
      out.map .solution ∧ Sends src limit ops rows out := by
  -- the induction goes up the stack, from its lowest operator
  suffices h : ∀ k ≤ ops.length, ∃ out : List Solution,
      ((Plan.opened ⟨E⟩ src limit).operandRows previous last (k + 1)).rows =
        out.map .solution ∧ Sends src limit (ops.drop k) rows out from h 0 (Nat.zero_le _)
  intro k hk
  induction hn : ops.length - k generalizing k with
  | zero =>
      obtain rfl : k = ops.length := by omega
      exact ⟨rows, hrows, by rw [List.drop_length]; rfl⟩
  | succ n ih =>
      have hlt : k < ops.length := by omega
      obtain ⟨between, hbetween, hsends⟩ := ih (k + 1) hlt (by omega)
      obtain ⟨l, hl⟩ := hd.reads_solutions haccepts hform hop htyped hlast hlt
      obtain ⟨above, habove⟩ := hd.reads_solutions haccepts hform hop htyped hlast hk
      have hmem : E.operator? (k + 2) = some ops[k] := by
        rw [hop (k + 2) (by omega), hd.operator?, List.getElem?_eq_getElem hlt]
      have hemit := hrespond k ops[k] hlt hmem
      have hpassed : last.rows (k + 2) = (above.flatMap Prod.snd).map .solution := by
        have harriving : ((Plan.opened ⟨E⟩ src limit).operandRows previous last (k + 1)).rows =
            last.rows (k + 2) := by
          rw [Graph.operandRows_eq, Graph.rows_deliver (l := [k + 2]) ?_, List.flatMap_cons,
            List.flatMap_nil, List.append_nil]
          · rfl
          · rw [Graph.inputs_opened, hinputs (k + 1) hlt, hd.inputs, if_pos (by omega)]
            rfl
        rw [← harriving, habove, solutionOperands.rows_eq]
      rw [hl, hpassed] at hemit
      refine ⟨above.flatMap Prod.snd, by rw [habove, solutionOperands.rows_eq], ?_⟩
      rw [List.drop_eq_getElem_cons hlt]
      refine ⟨between, hsends, k + 2, l, ?_, hemit⟩
      rw [hl, solutionOperands.rows_eq] at hbetween
      exact List.map_injective_iff.2 Row.solution_injective hbetween

end Reading

/-- A pattern that is held below a stack has the same solutions there as on its own, and the
operators of the stack make of them what arrives at the result. -/
theorem evaluate (hd : d.Stacked form ops) (haccepts : ∀ op ∈ ops, op.accepts = (· == .solution))
    (hform : (Operator.result form : Operator Plan).accepts = (· == .solution))
    {own held G : Graph Plan} (hh : hd.site.Holds own held) (hheld : held.SameEdges E)
    (hown : own.SameEdges G) (htyped : E.Typed Plan.Typed) {n : Nat}
    (hfinal : (Plan.opened ⟨E⟩ src limit).finalRows src limit = .ok (last, n))
    (hlast : (Plan.opened ⟨E⟩ src limit).Concludes src previous last) :
    ∃ rows out : List Solution,
      ((Plan.opened ⟨E⟩ src limit).deliver (fun i => last.rows i.source) (ops.length + 1)).rows =
        rows.map .solution ∧
      (∃ m, Plan.evaluate src limit ⟨G⟩ = .ok ⟨some (.select []), rows, [], [], [], m⟩) ∧
      ((Plan.opened ⟨E⟩ src limit).operandRows previous last 1).rows = out.map .solution ∧
      Sends src limit ops rows out := by
  have hfirst : hd.site.first = ops.length + 2 := hd.size
  have hop (k : Nat) (hk : k < ops.length + 2) : E.operator? k = d.graph.operator? k :=
    (hheld.operator? k).trans (hh.operator?_old k (hfirst ▸ hk))
  have hinputs (k : Nat) (hk : k ≤ ops.length) : E.inputs k = d.graph.inputs k :=
    (hheld.inputs k).trans (hh.inputs_old (hfirst ▸ Nat.lt_of_le_of_lt hk (by omega))
      (Nat.ne_of_lt (Nat.lt_succ_of_le hk)))
  have hcopies : hd.site.Copies G E := hh.copies.sameEdges hown hheld
  have hsolves : (Plan.opened ⟨E⟩ src limit).Solves src previous last := by
    obtain ⟨order, horder, -, hround⟩ := hlast
    exact Graph.solves_of_round (Graph.topologicalOrder_spec horder) hround
  -- nothing is fed back to the lowest operator
  have hforward : (Plan.opened ⟨E⟩ src limit).operandRows previous last (ops.length + 1) =
      (Plan.opened ⟨E⟩ src limit).deliver (fun i => last.rows i.source) (ops.length + 1) := by
    rw [Graph.operandRows_eq]
    refine Graph.deliver_congr fun i hi => ?_
    rw [Graph.inputs_opened] at hi
    have htarget : E.inputs (ops.length + 1) = (G.inputs 1).map hd.site.placeInput :=
      hcopies.inputs 1
    rw [htarget] at hi
    obtain ⟨j, hj, rfl⟩ := List.mem_map.1 hi
    rw [Site.placeInput, hcopies.forward j hj]
    rfl
  obtain ⟨l, hl⟩ := hd.reads_solutions haccepts hform hop htyped hlast (Nat.le_refl _)
  have hrows : ((Plan.opened ⟨E⟩ src limit).deliver (fun i => last.rows i.source)
      (ops.length + 1)).rows = (l.flatMap Prod.snd).map .solution := by
    rw [← hforward, hl, solutionOperands.rows_eq]
  have houtside (k : Nat) (hk : k < ops.length) :
      k + 2 = hd.site.target ∨ ∀ j, k + 2 ≠ hd.site.place j := by
    rcases Nat.lt_or_eq_of_le (Nat.succ_le_of_lt hk) with hlt | heq
    · exact .inr (Site.outside_of_lt_first (hfirst ▸ by omega) (by omega)
        (Nat.ne_of_lt (Nat.succ_lt_succ hlt)))
    · exact .inl (congrArg Nat.succ heq)
  obtain ⟨out, hout, hsends⟩ := hd.sends haccepts hform hop htyped hlast hinputs
    (fun k op hk hkop => respond_outside hcopies hsolves hkop (houtside k hk)) (hforward ▸ hrows)
  refine ⟨l.flatMap Prod.snd, out, hrows, ?_, hout, hsends⟩
  refine hcopies.evaluate ?_ ?_ hfinal ?_
  · exact fun id op hid => hh.result_iff id op ((hown.operator? id).symm.trans hid)
  · exact (hown.operator? 1).trans hh.result
  · rw [← hrows, Site.Copies.arriving]
    refine congrArg Operands.rows (Eq.symm ?_)
    refine Graph.deliver_of_inputs (f := hd.site.placeInput) (fun _ => rfl) ?_ _
    rw [Graph.inputs_opened, Graph.inputs_opened]
    exact hcopies.inputs 1

end Draft.Stacked

/-! ## Patterns -/

namespace Query

/-- Plans the pattern of a query on its own. The result shows all variables. -/
def drawPattern (p : Planner) (q : Query) : Draw Unit := do
  QuadAlgebra.drawPattern p none q.pattern (← Draw.addResult (.select []))

/-- The plan that the pattern of a query has on its own. -/
def preparePattern (p : Planner) (q : Query) : Draw Prepared := do
  let p ← p.within q.dataset
  Draw.prepared p.dataset (q.drawPattern p)

end Query

section Patterns

variable {p : Planner} {d e : Draft} {form : ResultForm} {ops : List (Operator Plan)}
  {pattern : Option Group}

theorem mirrors_drawPattern {s : Site} (p : Planner) (graph : Option Item)
    (pattern : Option Group) : s.MirrorsInto (drawPattern p graph pattern) := by
  cases pattern with
  | some g => exact g.mirrors_draw p graph
  | none => exact .attachSource (.probe graph) fun h => by cases h

/-- The pattern below a stack is drawn as on its own. -/
theorem Draft.Stacked.holds_drawPattern {q : Query} (hd : d.Stacked form ops)
    (hrun : (drawPattern p none q.pattern (bottom ops)).runOn d = (.ok (), e)) :
    ∃ base own : Draft, base.graph = .empty ∧ base.wiring = .none ∧
      (q.drawPattern p).runOn base = (.ok (), own) ∧ hd.site.Holds own.graph e.graph := by
  have hcarries : hd.site.Carries (d.cleared.withOperator (.result (.select []))) d :=
    ⟨hd.site.holds_base, rfl, rfl⟩
  obtain ⟨_, own, hown, -, hcarries⟩ := mirrors_drawPattern p none q.pattern ⟨1, 0⟩ (bottom ops)
    ⟨rfl, rfl, .inr ⟨rfl, rfl⟩⟩ _ _ hcarries _ _ hrun
  refine ⟨d.cleared, own, rfl, rfl, ?_, hcarries.holds⟩
  rw [Query.drawPattern, Edit.runOn_bind, Draw.addResult, Edit.runOn_bind, Draw.add_runOn]
  exact hown

/-- A selection is drawn as a stack of operators above its pattern. -/
theorem Query.ends_draw_select {q : Query} {repeated : Duplicates} {s : Selection}
    (hform : q.form = .select repeated s) {base : Draft} (hbase : base.graph = .empty) :
    (q.draw p).Ends base fun _ e => ∃ (a : Arrangement) (mid : Draft),
      a.Of base.nextVar s q.modifiers (drawNestedOf p none q.modifiers.having) ∧
      mid.Stacked (.select q.shownVariables) (a.operators repeated q.modifiers) ∧
      (q.drawSolutions p none ⟨1, 0⟩).runOn
        (base.withOperator (.result (.select q.shownVariables))) = (.ok (), e) ∧
      (QuadAlgebra.drawPattern p none q.pattern
        (Draft.Stacked.bottom (a.operators repeated q.modifiers))).runOn mid = (.ok (), e) := by
  have hdraw : q.draw p =
      (Draw.addResult (.select q.shownVariables) >>= q.drawSolutions p none) := by
    rw [draw, hform]
  have hsolutions : q.drawSolutions p none = p.solutions (.select repeated s) q.modifiers
      (drawNestedOf p none q.modifiers.having) (QuadAlgebra.drawPattern p none q.pattern) := by
    obtain ⟨form, dataset, pattern, groupBy, having, orderBy, limit, offset⟩ := q
    obtain rfl : form = .select repeated s := hform
    cases pattern <;> rfl
  have hsize : base.size = 1 := by rw [Draft.size, hbase]; rfl
  intro _ e hrun
  rw [hdraw] at hrun
  obtain ⟨c, d, hresult, hrun⟩ := Edit.runOn_bind_eq_ok.1 hrun
  rw [Draw.addResult, Edit.runOn_bind, Draw.add_runOn, hsize] at hresult
  obtain ⟨hc, rfl⟩ := Prod.mk.inj hresult
  obtain rfl := Except.ok.inj hc
  have hstart := Draft.Stacked.start hbase (.select q.shownVariables)
  have hnested : PlansAside (drawNestedOf p none q.modifiers.having).flatten :=
    drawNestedOf_aside p none _
  have hlength : q.modifiers.having.length = (drawNestedOf p none q.modifiers.having).length := by
    rw [drawNestedOf_eq_map, List.length_map]
  obtain ⟨a, mid, hof, hmid, hpattern⟩ :=
    Planner.ends_solutions hstart hnested hlength () e (hsolutions ▸ hrun)
  exact ⟨a, mid, hof, hmid, hrun, hpattern⟩

end Patterns

/-! ## Solutions of selections -/

/-- The rows that a drawing delivers to its cursor in a plan, when the evaluation comes to its
end. -/
def Plan.Delivers (plan : Plan) (src : Source) (limit : Nat) (draw : DrawInto)
    (rows : List Solution) : Prop :=
  ∃ (c : Cursor) (last : Assignment) (n : Nat), plan.graph.HoldsBelow c draw ∧
    (plan.opened src limit).finalRows src limit = .ok (last, n) ∧
      ((plan.opened src limit).deliver (fun i => last.rows i.source) c.target).rows =
        rows.map .solution

/-- No interim variable is mentioned in a selection. -/
structure Query.WithoutInterim (q : Query) (s : Selection) : Prop where
  modifiers : q.modifiers.WithoutInterim s
  pattern : ∀ g, q.pattern = some g → ∀ v ∈ g.scope, v.isInterim = false

section Evaluation

variable {p : Planner} {q : Query} {repeated : Duplicates} {s : Selection} {d d' : Draft}
  {limit : Nat} {store : Store} {prepared : Prepared} {e : Evaluation}

/-- A clause chooses the graphs that are read. -/
theorem Planner.within_eq_ok {clause : Option DatasetClause} {p' : Planner}
    (h : (p.within clause).runOn d = (.ok p', d')) :
    p' = { p with dataset := p'.dataset } ∧ ∀ d, (p.within clause).runOn d = (.ok p', d) := by
  cases clause with
  | none =>
      obtain ⟨hp, -⟩ := Prod.mk.inj h
      obtain rfl := Except.ok.inj hp
      exact ⟨rfl, fun _ => rfl⟩
  | some c =>
      have hchosen {d d' : Draft}
        (h : (pure { p with dataset := .ofClause c } : Draw Planner).runOn d =
          (.ok p', d')) : { p with dataset := .ofClause c } = p' :=
        Except.ok.inj (Prod.mk.inj h).1
      by_cases hnamed : c.namedGraphs.isEmpty = true
      · have hrun (d : Draft) : (p.within (some c)).runOn d =
            (.ok { p with dataset := .ofClause c }, d) := by
          simp only [within, hnamed]
          rfl
        rw [hrun] at h
        obtain rfl := hchosen h
        exact ⟨rfl, hrun⟩
      · by_cases henabled : p.config.capabilities.namedGraphs = true
        · have hrun (d : Draft) : (p.within (some c)).runOn d =
              (.ok { p with dataset := .ofClause c }, d) := by
            simp only [within, hnamed, henabled, require]
            rfl
          rw [hrun] at h
          obtain rfl := hchosen h
          exact ⟨rfl, hrun⟩
        · simp only [within, hnamed, henabled, require] at h
          cases h

theorem feedsWithin_drawPattern (hp : p.ReadsStore) {pattern : Option Group} {V : Set Variable}
    (hscope : ∀ g, pattern = some g → ∀ v ∈ g.scope, v ∈ V) :
    FeedsWithin V (drawPattern p none pattern) := by
  have hgraph : ∀ v ∈ Item.vars (none : Option Item).toList, v ∈ V := fun v hv =>
    absurd (Item.mem_vars.1 hv) List.not_mem_nil
  cases pattern with
  | some g => exact g.feedsWithin hp (hscope g rfl) hgraph
  | none => exact .attachSource (Operator.fits_probe hgraph)

/-- What is selected is shown. -/
theorem Query.mem_shownVariables (hform : q.form = .select repeated s) (hw : q.WithoutInterim s)
    {v : Variable} (hv : v ∈ q.scope) : v ∈ q.shownVariables := by
  obtain ⟨form, dataset, pattern, modifiers⟩ := q
  obtain rfl : form = .select repeated s := hform
  cases s with
  | explicit items => exact OrdSet.mem_ofList.1 hv
  | wildcard =>
      cases pattern with
      | some g => exact List.mem_filter.2 ⟨OrdSet.mem_toList.2 hv, by
          simp [hw.pattern g rfl v hv]⟩
      | none => exact absurd hv (OrdSet.not_mem_empty v)

/-- The solutions of a selection are what its modifiers make of the solutions of its pattern. The
plan of the selection delivers these to the lowest of its operators, and they are what the pattern
has on its own. -/
theorem Query.solutions_prepare (hp : p.ReadsStore) (hform : q.form = .select repeated s)
    (hw : q.WithoutInterim s) (hprepare : (q.prepare p).runOn d = (.ok prepared, d'))
    (heval : prepared.plan.evaluate ⟨store, prepared.dataset⟩ limit = .ok e) :
    ∃ (rows : List Solution) (n : Nat) (plan : Schedule),
      prepared.plan.Delivers ⟨store, prepared.dataset⟩ limit
        (QuadAlgebra.drawPattern { p with dataset := prepared.dataset } none q.pattern) rows ∧
      (∃ (own : Draft) (alone : Prepared) (found : Evaluation),
        ((q.preparePattern p).runOn own).1 = .ok alone ∧ alone.dataset = prepared.dataset ∧
        alone.plan.evaluate ⟨store, prepared.dataset⟩ limit = .ok found ∧
        found.solutions = rows) ∧
      (∀ row ∈ rows, ∀ v ∈ row.keySet, v.isInterim = false) ∧
      plan.Fits { p with dataset := prepared.dataset } ⟨store, prepared.dataset⟩ limit n s
        q.modifiers ∧
      e.solutions = plan.solutions repeated s q.modifiers rows := by
  have htyped : prepared.plan.Typed := q.ends_prepare prepared d' hprepare
  obtain ⟨p', d₀, hwithin, hprepare⟩ := Edit.runOn_bind_eq_ok.1 hprepare
  obtain ⟨d₁, E, hbuild, hfinish, rfl⟩ := prepared_eq_ok hprepare
  obtain ⟨hp', hwithin⟩ := Planner.within_eq_ok hwithin
  have hreads : p'.ReadsStore := by
    rw [hp']
    exact hp
  obtain ⟨a, mid, hof, hmid, hdraw, hpattern⟩ := q.ends_draw_select hform rfl () d₁ hbuild
  obtain ⟨base, own, hbase, hwiring, hown, hholds⟩ := hmid.holds_drawPattern hpattern
  obtain ⟨⟨order, horder⟩, hedges⟩ := Graph.updateVariables_eq_ok hfinish
  -- the pattern on its own has an order, because the larger plan has one
  obtain ⟨order', horder'⟩ : ∃ order, own.graph.topologicalOrder = .ok order :=
    (hholds.copies.sameEdges (.refl _) hedges).exists_topologicalOrder
      (Graph.topologicalOrder_spec (hedges.topologicalOrder.trans horder))
  obtain ⟨G, hG⟩ := Graph.updateVariables_of_order horder'
  obtain ⟨-, hsame⟩ := Graph.updateVariables_eq_ok hG
  rw [Plan.evaluate_eq] at heval
  obtain ⟨last, n, hfinal, hcollect⟩ := Graph.evaluate_eq_ok heval
  obtain ⟨previous, hlast⟩ := Graph.exists_concludes hfinal
  obtain ⟨rows, out, hrows, ⟨m, halone⟩, hout, hsends⟩ := hmid.evaluate
    (hof.accepts repeated) rfl hholds hedges hsame htyped.graph hfinal hlast
  obtain ⟨plan, hfits, rfl⟩ := hof.sends hw.modifiers hreads repeated hsends
  have hcompletes : E.Completes mid d₁ := by
    refine ⟨?_, fun id _ _ => hedges.operator? id, fun id _ _ _ _ _ => hedges.inputs id⟩
    rw [hedges.operator?, hholds.operator?_old Graph.root (Nat.lt_trans hmid.site.target_pos
      hmid.site.target_lt)]
    exact hmid.sound.root
  have hlower : (a.operators repeated q.modifiers).length + 1 < mid.size :=
    hmid.size ▸ Nat.lt_succ_self _
  have hfree : mid.graph.inputs ((a.operators repeated q.modifiers).length + 1) = [] :=
    (hmid.inputs _).trans (if_neg fun h => absurd h.2 (Nat.not_succ_le_self _))
  have hbelow : E.HoldsBelow ⟨(a.operators repeated q.modifiers).length + 1, 0⟩
      (QuadAlgebra.drawPattern p' none q.pattern) :=
    ⟨mid, d₁, hmid.sound, hlower, hfree, hpattern, hcompletes, hedges.inputs _⟩
  refine ⟨rows, _, plan, ?_, ?_, fun row hrow => ?_, hp' ▸ hfits, ?_⟩
  · rw [← hp']
    exact ⟨_, last, n, hbelow, hfinal, hrows⟩
  · have hstart : base.cleared = base := by
      rw [Draft.cleared, ← hbase, ← hwiring]
    have hprepared : ((Draw.prepared p'.dataset (q.drawPattern p')).runOn base).1 =
        .ok ⟨⟨G⟩, p'.dataset⟩ := prepared_runOn (by rw [hstart, hown]) hG
    refine ⟨base, ⟨⟨G⟩, p'.dataset⟩, _, ?_, rfl, halone, rfl⟩
    rw [preparePattern, Edit.runOn_bind, hwithin]
    exact hprepared
  · exact (feedsWithin_drawPattern hreads hw.pattern).delivers hbelow hlast
      (fun _ => .inr rfl) (hrows ▸ List.mem_map_of_mem hrow)
  · have hfeeds : FeedsWithin {v | v ∈ q.scope} (q.drawSolutions p' none) :=
      q.feedsWithin hreads hform (fun _ hv => hv)
        fun _ hv => absurd (Item.mem_vars.1 hv) List.not_mem_nil
    have hdraw : (q.drawSolutions p' none ⟨d₀.cleared.size, 0⟩).runOn
        (d₀.cleared.withOperator (.result (.select q.shownVariables))) = (.ok (), d₁) := hdraw
    have hshown := hfeeds.shown (fun v hv => q.mem_shownVariables hform hw hv) rfl hdraw hfinish
      htyped.graph hlast hcollect
    exact List.map_injective_iff.2 Row.solution_injective (hshown.trans hout)

end Evaluation

/-- How many acquaintances everybody has who has more than one of them. -/
def sociable : Query :=
  let count : Expression := .aggregate ⟨.count, false, some (.variable ⟨"y"⟩)⟩
  ⟨.select .all (.explicit [.variable ⟨"x"⟩, .computed count ⟨"n"⟩]), none,
    some ⟨[.triple ⟨.var ⟨"x"⟩, .term (.iri "knows"), .var ⟨"y"⟩⟩]⟩,
    ⟨[.variable ⟨"x"⟩], [.binary count .greaterThan (.constant (.integer 1))], [], none, none⟩⟩

/-- Somebody knows two others, one of whom knows the other one. -/
def company : Store :=
  .ofList [⟨none, ⟨.iri "a", .iri "knows", .iri "b"⟩⟩, ⟨none, ⟨.iri "a", .iri "knows", .iri "c"⟩⟩,
    ⟨none, ⟨.iri "b", .iri "knows", .iri "c"⟩⟩]

theorem withoutInterim_sociable : sociable.WithoutInterim
    (.explicit [.variable ⟨"x"⟩,
      .computed (.aggregate ⟨.count, false, some (.variable ⟨"y"⟩)⟩) ⟨"n"⟩]) where
  modifiers :=
    { keys := fun k hk v hv => by
        obtain rfl := List.mem_singleton.1 hk
        obtain rfl := List.mem_singleton.1 hv
        decide +kernel
      targets := fun items hitems i hi => by
        obtain rfl := Selection.explicit.inj hitems
        rcases List.mem_cons.1 hi with rfl | hi
        · decide +kernel
        · obtain rfl := List.mem_singleton.1 hi
          decide +kernel
      bindings := fun b hb v hv => by
        obtain rfl := List.mem_singleton.1 hb
        exact absurd hv (OrdSet.not_mem_empty v)
      having := fun c hc v hv => by
        obtain rfl := List.mem_singleton.1 hc
        exact (OrdSet.mem_union.1 hv).elim (absurd · (OrdSet.not_mem_empty v))
          (absurd · (OrdSet.not_mem_empty v))
      orderBy := fun k hk => absurd hk List.not_mem_nil }
  pattern := fun g hg => by
    obtain rfl := Option.some.inj hg
    decide +kernel

theorem solutions_prepare_sociable : ∃ (prepared : Prepared) (e : Evaluation)
    (rows : List Solution) (n : Nat) (plan : Schedule),
    ((sociable.prepare (.ofStore .empty)).runOn .empty).1 = .ok prepared ∧
    prepared.plan.evaluate ⟨company, prepared.dataset⟩ defaultIterations = .ok e ∧
    e.solutions = [((∅ : Solution).insert ⟨"x"⟩ (.iri "a")).insert ⟨"n"⟩ (.integer 2)] ∧
    prepared.plan.Delivers ⟨company, prepared.dataset⟩ defaultIterations
      (drawPattern { Planner.ofStore .empty with dataset := prepared.dataset }
        none sociable.pattern) rows ∧
    plan.Fits { Planner.ofStore .empty with dataset := prepared.dataset }
      ⟨company, prepared.dataset⟩
      defaultIterations n (.explicit [.variable ⟨"x"⟩,
        .computed (.aggregate ⟨.count, false, some (.variable ⟨"y"⟩)⟩) ⟨"n"⟩]) sociable.modifiers ∧
    e.solutions = plan.solutions .all (.explicit [.variable ⟨"x"⟩,
      .computed (.aggregate ⟨.count, false, some (.variable ⟨"y"⟩)⟩) ⟨"n"⟩]) sociable.modifiers
        rows := by
  have heval : (((sociable.prepare (.ofStore .empty)).runOn .empty).1 >>= fun prepared =>
      prepared.plan.evaluate ⟨company, prepared.dataset⟩ defaultIterations).map
        Evaluation.solutions =
      .ok [((∅ : Solution).insert ⟨"x"⟩ (.iri "a")).insert ⟨"n"⟩ (.integer 2)] := by
    decide +kernel
  have hstore : (Planner.ofStore .empty).ReadsStore := ⟨_, _, rfl⟩
  cases hrun : (sociable.prepare (.ofStore .empty)).runOn .empty with
  | mk outcome after =>
      rw [hrun] at heval
      cases outcome with
      | error error => cases heval
      | ok prepared =>
          replace heval : (prepared.plan.evaluate ⟨company, prepared.dataset⟩ defaultIterations).map
            Evaluation.solutions = _ := heval
          cases he : prepared.plan.evaluate ⟨company, prepared.dataset⟩ defaultIterations with
          | error error =>
              rw [he] at heval
              cases heval
          | ok e =>
              rw [he] at heval
              obtain ⟨rows, n, plan, hdelivers, -, -, hfits, hsolutions⟩ :=
                sociable.solutions_prepare hstore rfl withoutInterim_sociable hrun he
              exact ⟨prepared, e, rows, n, plan, rfl, he, Except.ok.inj heval, hdelivers, hfits,
                hsolutions⟩

end QuadAlgebra
