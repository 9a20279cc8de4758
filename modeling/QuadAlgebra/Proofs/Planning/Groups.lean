import QuadAlgebra.Proofs.Planning.Filters

/-!
# Planning preserves the meaning of groups

By induction over patterns and expressions together, the plan of a group has the solutions of the
group (`Group.draws_solutions`), and so has the plan of a selection of everything
(`selectAll_solutions`).
-/

namespace QuadAlgebra

variable {src : Source} {limit : Nat} {c c' : Cursor} {d d₁ d' : Draft} {op : Operator Plan}
  {rows : List Solution} {lists : List (List Solution)}

/-! ## Groups -/

theorem draws_union {draws : List DrawInto} (graph : Option Term) :
    List.Forall₂ (Draws src limit) draws lists → lists ≠ [] →
      Draws src limit (fun c =>
        match draws with
        | [] => c.attachSource (.probe (graph.map .term))
        | [branch] => branch c
        | several => do
          let union ← c.attach .union
          several.zipIdx.forM fun (branch, operand) => branch (union.sibling operand))
        lists.flatten := by
  intro hdraws hne
  cases hdraws with
  | nil => exact absurd rfl hne
  | cons hfirst hrest =>
      cases hrest with
      | nil => simpa using hfirst
      | cons hsecond hrest =>
          exact draws_over_all (.cons hfirst (.cons hsecond hrest))
            (fun id l => ⟨_, Operator.emit_union⟩) (by simp [Operator.kind])
            Operator.yields_union

theorem groupsSolutions_eq (graph : Option Term) (groups : List Group) :
    groupsSolutions src graph groups = (groups.map (Group.solutions src graph)).flatten := by
  induction groups with
  | nil => rfl
  | cons g rest ih => rw [groupsSolutions, List.map_cons, List.flatten_cons, ih]

mutual

/-- The plan of a group has the solutions of the group. -/
theorem Group.draws_solutions (hlimit : 0 < limit) : ∀ (g : Group), g.isCore = true →
    ∀ (p : Planner), p.ForStore → ∀ graph : Option Term,
      Draws src limit (g.draw p (graph.map .term)) (g.solutions src graph)
  | ⟨elements⟩, hcore, p, hp, graph =>
    draws_filters hlimit elements hcore p hp graph
      ((drawElements_standsFor hlimit elements hcore p hp graph .start).draws hp)

/-- The filters among some elements are applied to what is drawn below them. -/
theorem draws_filters (hlimit : 0 < limit) :
    ∀ (elements : List Element), elementsCore elements = true →
    ∀ (p : Planner), p.ForStore → ∀ (graph : Option Term) {draw : DrawInto} {rows : List Solution},
      Draws src limit draw rows →
        Draws src limit (fun c => do draw (← drawFilters p (graph.map .term) elements c))
          (rows.filter (filtersHold src graph elements))
  | [], _, p, _, graph, draw, rows, hdraw => by
    have hall : rows.filter (filtersHold src graph []) = rows :=
      List.filter_eq_self.2 fun _ _ => rfl
    rw [hall]
    exact hdraw
  | e :: rest, hcore, p, hp, graph, draw, rows, hdraw => by
    rw [elementsCore, Bool.and_eq_true] at hcore
    have hbelow := draws_filters hlimit rest hcore.2 p hp graph hdraw
    cases e with
    | filter e =>
        have hover := draws_over_filter (p := p)
          (e.drawNested_plansFor hlimit hcore.1 p hp graph) hbelow
        rw [List.filter_filter] at hover
        have hassoc : (fun c => do
              draw (← drawFilters p (graph.map .term) (.filter e :: rest) c)) =
            (fun c => do
              let c ← p.attachFilter e (e.drawNested p (graph.map .term)) c
              draw (← drawFilters p (graph.map .term) rest c)) := by
          funext c
          rw [drawFilters, bind_assoc]
        rw [hassoc]
        exact hover
    | _ => exact hbelow

theorem drawElements_standsFor (hlimit : 0 < limit) :
    ∀ (elements : List Element), elementsCore elements = true →
    ∀ (p : Planner), p.ForStore → ∀ (graph : Option Term) {s : Segment} {rows : List Solution},
      s.StandsFor src limit graph rows →
        (drawElements p (graph.map .term) elements s).StandsFor src limit graph
          (elementsExtend src graph elements rows)
  | [], _, _, _, _, _, _, hs => hs
  | e :: rest, hcore, p, hp, graph, s, rows, hs => by
    rw [elementsCore, Bool.and_eq_true] at hcore
    have hstep := e.draw_standsFor hlimit hcore.1 p hp graph hs
    exact drawElements_standsFor hlimit rest hcore.2 p hp graph (hstep.scope _)

/-- An element makes a segment stand for the solutions that the element makes of its own. -/
theorem Element.draw_standsFor (hlimit : 0 < limit) : ∀ (e : Element), e.isCore = true →
    ∀ (p : Planner), p.ForStore → ∀ (graph : Option Term) {s : Segment} {rows : List Solution},
      s.StandsFor src limit graph rows →
        (e.draw p (graph.map .term) s).StandsFor src limit graph (e.extend src graph rows)
  | .triple t, _, p, hp, active, s, rows, hs => by
    rw [Element.draw, hp.outsideRules]
    exact hs.addTriple t
  | .path ⟨subject, .predicate iri, object⟩, _, p, hp, active, s, rows, hs => by
    rw [Element.draw, Segment.addPath]
    simp only [Path.predicate?, hp.outsideRules]
    exact hs.addTriple _
  | .group g, hcore, p, hp, active, s, rows, hs =>
    hs.addOther (g.draws_solutions hlimit hcore p hp active)
  | .union [], _, p, _, active, s, rows, hs => by
    have hempty := hs.addOther (draws_probe active)
    rw [joinSolutions_unit_right] at hempty
    exact hempty
  | .union (g :: rest), hcore, p, hp, active, s, rows, hs => by
    have hbranches := draws_union active
      (drawBranches_draws hlimit (g :: rest) hcore p hp active) (List.cons_ne_nil _ _)
    rw [← groupsSolutions_eq] at hbranches
    exact hs.addOther hbranches
  | .optional g, hcore, p, hp, active, s, rows, hs =>
    .close s (draws_over_two (hs.draws hp) (g.draws_solutions hlimit hcore p hp active)
      (fun id l => ⟨_, Operator.emit_optional⟩) (by simp [Operator.kind]) Operator.yields_optional)
  | .minus g, hcore, p, hp, active, s, rows, hs =>
    .close s (draws_over_two (hs.draws hp) (g.draws_solutions hlimit hcore p hp active)
      (fun id l => ⟨_, Operator.emit_minus⟩) (by simp [Operator.kind]) Operator.yields_minus)
  | .bind e target, _, p, hp, active, s, rows, hs => .close s (draws_bind (hs.draws hp))
  | .graph (.term name) g, hcore, p, hp, active, s, rows, hs =>
    hs.addOther (draws_graph (g.draws_solutions hlimit hcore p hp (some name)))
  | .filter _, _, _, _, _, s, rows, hs => hs

theorem drawBranches_draws (hlimit : 0 < limit) :
    ∀ (branches : List Group), groupsCore branches = true →
    ∀ (p : Planner), p.ForStore → ∀ graph : Option Term,
      List.Forall₂ (Draws src limit) (drawBranches p (graph.map .term) branches)
        (branches.map (Group.solutions src graph))
  | [], _, _, _, _ => .nil
  | g :: rest, hcore, p, hp, graph => by
    rw [groupsCore, Bool.and_eq_true] at hcore
    exact .cons (g.draws_solutions hlimit hcore.1 p hp graph)
      (drawBranches_draws hlimit rest hcore.2 p hp graph)

/-- The plans for the existence patterns of an expression have the solutions of these. -/
theorem Expression.drawNested_plansFor (hlimit : 0 < limit) : ∀ (e : Expression), e.isCore = true →
    ∀ (p : Planner), p.ForStore → ∀ graph : Option Term,
      List.Forall₂ (PlansFor src limit graph) (e.drawNested p (graph.map .term))
        e.existencePatterns
  | .variable _, _, _, _, _ => .nil
  | .constant _, _, _, _, _ => .nil
  | .bound _, _, _, _, _ => .nil
  | .aggregate _, _, _, _, _ => .nil
  | .existence _ g, hcore, p, hp, graph =>
    .cons (plansFor_nestedPlan hlimit hcore
      (fun v hv => OrdSet.mem_union.2 (Or.inl hv))
      (g.draws_solutions hlimit hcore { p with inRules := false } ⟨rfl, hp.scans⟩ graph)) .nil
  | .binary l _ r, hcore, p, hp, graph => by
    rw [Expression.isCore, Bool.and_eq_true] at hcore
    exact List.rel_append (l.drawNested_plansFor hlimit hcore.1 p hp graph)
      (r.drawNested_plansFor hlimit hcore.2 p hp graph)
  | .unary _ e, hcore, p, hp, graph => e.drawNested_plansFor hlimit hcore p hp graph
  | .call _ args, hcore, p, hp, graph => drawNestedOf_plansFor hlimit args hcore p hp graph

theorem drawNestedOf_plansFor (hlimit : 0 < limit) :
    ∀ (args : List Expression), expressionsCore args = true →
    ∀ (p : Planner), p.ForStore → ∀ graph : Option Term,
      List.Forall₂ (PlansFor src limit graph) (drawNestedOf p (graph.map .term) args).flatten
        (Expression.existencePatternsOf args)
  | [], _, _, _, _ => .nil
  | e :: rest, hcore, p, hp, graph => by
    rw [expressionsCore, Bool.and_eq_true] at hcore
    exact List.rel_append (e.drawNested_plansFor hlimit hcore.1 p hp graph)
      (drawNestedOf_plansFor hlimit rest hcore.2 p hp graph)

end

/-! ## Selections -/

theorem Binding.sort_nil : Binding.sort [] = .ok [] := by
  rw [Binding.sort, Binding.order]
  rfl

/-- A selection of everything without modifiers is planned like its pattern. -/
theorem solutions_wildcard_runOn (p : Planner) (pattern : DrawInto) (c : Cursor) (d : Draft) :
    (p.solutions (.select .all .wildcard) Modifiers.none [] pattern c).runOn d =
      (pattern c).runOn d := by
  have hsort : Planner.solutions.liftExcept (Binding.sort []) = pure [] := by
    rw [Binding.sort_nil]
    rfl
  change ((do
    let computed ← Planner.solutions.liftExcept (Binding.sort [])
    let computedKeys ← Planner.solutions.liftExcept (Binding.sort [])
    let c ← c.attachAll (Planner.bindOperators computed)
    let c ← c.attachAll (Planner.bindOperators computedKeys)
    pattern c : Draw Unit)).runOn d = _
  rw [hsort]
  rfl

theorem selectAll_draw_runOn (p : Planner) (g : Group) (d : Draft) :
    ((Query.selectAll g).draw p).runOn d =
      (g.draw p none ⟨d.size, 0⟩).runOn
        (d.withOperator (.result (.select (Query.selectAll g).shownVariables))) := by
  have hsolutions : (Query.selectAll g).drawSolutions p none =
      p.solutions (.select .all .wildcard) Modifiers.none [] (g.draw p none) := by
    rw [Query.selectAll, Query.select, Modifiers.none, Query.drawSolutions, drawNestedOf]
  have hdraw : (Query.selectAll g).draw p = (do
      let result ← Draw.add (.result (.select (Query.selectAll g).shownVariables))
      (Query.selectAll g).drawSolutions p none ⟨result, 0⟩) := rfl
  rw [hdraw, Edit.runOn_bind, Draw.add_runOn, hsolutions]
  exact solutions_wildcard_runOn p _ _ _

/-- A prepared plan is what has been drawn, with the variable sets computed. -/
theorem prepared_eq_ok {dataset : Dataset} {build : Draw Unit} {prepared : Prepared}
    (h : (Draw.prepared dataset build).runOn d = (.ok prepared, d')) :
    ∃ d₁ G, build.runOn d.cleared = (.ok (), d₁) ∧
      Graph.updateVariables.runOn d₁.graph = (.ok (), G) ∧ prepared = ⟨⟨G⟩, dataset⟩ := by
  cases hbuilt : (do
      build
      Draw.onGraph Graph.updateVariables : Draw Unit).runOn d.cleared with
  | mk outcome after =>
      have houtcome : ((do
          build
          Draw.onGraph Graph.updateVariables : Draw Unit).runOn d.cleared).1.map
              (fun _ => (⟨⟨after.graph⟩, dataset⟩ : Prepared)) = .ok prepared := by
        have hfirst := congrArg Prod.fst h
        have hafter := congrArg Prod.snd hbuilt
        subst hafter
        exact hfirst
      rw [hbuilt] at houtcome
      cases outcome with
      | error e => cases houtcome
      | ok u =>
          obtain rfl := Except.ok.inj houtcome
          obtain ⟨u', d₁, hbuild, hfinish⟩ := Edit.runOn_bind_eq_ok.1 hbuilt
          rw [Draw.onGraph, Edit.runOn_within] at hfinish
          obtain ⟨hok, rfl⟩ := Prod.mk.inj hfinish
          exact ⟨d₁, _, hbuild, Prod.ext hok rfl, rfl⟩

/-- A selection of everything in a core pattern has the solutions of the pattern. -/
theorem selectAll_solutions {p : Planner} {g : Group} {prepared : Prepared} (store : Store)
    (hp : p.ForStore) (hcore : g.isCore = true)
    (hinterim : ∀ v, v ∈ g.scope → v.isInterim = false) (hlimit : 0 < limit)
    (h : ((Query.selectAll g).prepare p).runOn d = (.ok prepared, d')) :
    prepared.dataset = p.dataset ∧
      ∃ e, prepared.plan.evaluate ⟨store, prepared.dataset⟩ limit = .ok e ∧
        e.solutions.Perm (g.solutions ⟨store, p.dataset⟩ none) := by
  have hprepared : (Draw.prepared p.dataset ((Query.selectAll g).draw p)).runOn d =
      (.ok prepared, d') := h
  obtain ⟨d₁, G, hbuild, hfinish, rfl⟩ := prepared_eq_ok hprepared
  refine ⟨rfl, ?_⟩
  rw [selectAll_draw_runOn] at hbuild
  have hready := ready_result (d := d.cleared) rfl
    (.select (Query.selectAll g).shownVariables)
  have hdraws : Draws ⟨store, p.dataset⟩ limit _ _ := g.draws_solutions hlimit hcore p hp none
  have hfed := hdraws _ _ _ hready hbuild
  obtain ⟨found, hperm, heval⟩ := evaluate_finished rfl hfed hfinish hlimit
  refine ⟨_, heval, ?_⟩
  have hbinds : ∀ s ∈ found, s.BindsOnly g.scope := fun s hs =>
    g.binds_of_mem_solutions none hcore s (hperm.mem_iff.1 hs)
  have hshown : ∀ v, v ∈ g.scope → v ∈ (Query.selectAll g).shownVariables := fun v hv =>
    List.mem_filter.2 ⟨OrdSet.mem_toList.2 hv, by simp [hinterim v hv]⟩
  rw [shownSolutions_eq hshown hbinds]
  exact hperm

/-- Whoever is known, with a name where there is one. -/
def acquaintances : Group :=
  ⟨[.triple ⟨.var ⟨"x"⟩, .term (.iri "knows"), .var ⟨"y"⟩⟩,
    .optional ⟨[.triple ⟨.var ⟨"y"⟩, .term (.iri "name"), .var ⟨"n"⟩⟩]⟩]⟩

theorem selectAll_acquaintances : ∃ prepared e,
    (((Query.selectAll acquaintances).prepare (.ofStore .empty)).runOn .empty).1 = .ok prepared ∧
    prepared.plan.evaluate ⟨.ofList [⟨none, ⟨.iri "a", .iri "knows", .iri "b"⟩⟩],
      prepared.dataset⟩ defaultIterations = .ok e ∧
    e.solutions =
      [((∅ : Solution).insert ⟨"x"⟩ (.iri "a")).insert ⟨"y"⟩ (.iri "b")] := by
  have hok : (((Query.selectAll acquaintances).prepare (.ofStore .empty)).runOn .empty).1.toBool =
      true := by decide +kernel
  cases hrun : ((Query.selectAll acquaintances).prepare (.ofStore .empty)).runOn .empty with
  | mk outcome after =>
      cases outcome with
      | error e =>
          rw [hrun] at hok
          cases hok
      | ok prepared =>
          obtain ⟨-, e, heval, hperm⟩ := selectAll_solutions
            (.ofList [⟨none, ⟨.iri "a", .iri "knows", .iri "b"⟩⟩]) ⟨rfl, _, _, rfl⟩
            (by decide +kernel) (fun v hv => by
              revert v
              decide +kernel) (show 0 < defaultIterations by decide) hrun
          have hsolutions : acquaintances.solutions
              ⟨.ofList [⟨none, ⟨.iri "a", .iri "knows", .iri "b"⟩⟩], .empty⟩ none =
                [((∅ : Solution).insert ⟨"x"⟩ (.iri "a")).insert ⟨"y"⟩ (.iri "b")] := by
            decide +kernel
          exact ⟨prepared, e, rfl, heval, List.perm_singleton.1 (hsolutions ▸ hperm)⟩

end QuadAlgebra
