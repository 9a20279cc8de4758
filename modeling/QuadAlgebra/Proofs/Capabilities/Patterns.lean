import QuadAlgebra.Proofs.Capabilities.Paths
import QuadAlgebra.Proofs.Planning.Filters

/-!
# Patterns within the capabilities of an evaluator

A group is drawn with operators that are allowed, wherever it is drawn: in the default graph, or in
a graph that it may name only if named graphs are allowed (`Group.feedsAllowed`). The induction is
on the pattern; each of the constructs that need an ability requires it before anything else is
drawn.
-/

namespace QuadAlgebra

open Edit

variable {c : Capabilities} {p : Planner} {graph : Option Item}

/-! ## Drawings -/

/-- The drawing adds operators within the capabilities only, wherever it feeds. -/
def FeedsAllowed (c : Capabilities) (draw : DrawInto) : Prop :=
  ∀ cursor, (draw cursor).Keeps (Draft.Within c)

/-- The drawing adds operators within the capabilities only, and the plan that it returns has no
others. -/
def PlansAllowed (c : Capabilities) (draw : Draw Plan) : Prop :=
  draw.Yields (Draft.Within c) (Plan.Within c)

/-- Attaching an allowed operator first keeps a drawing within the capabilities. -/
theorem FeedsAllowed.attach {op : Operator Plan} {draw : DrawInto} (hop : op.Within c)
    (hdraw : FeedsAllowed c draw) : FeedsAllowed c (fun cursor => do draw (← cursor.attach op)) :=
  fun _ => (Cursor.attach_keeps hop).bind hdraw

/-- Two drawings feed the operands of one operator. -/
theorem FeedsAllowed.both {op : Operator Plan} {first second : DrawInto} (hop : op.Within c)
    (hfirst : FeedsAllowed c first) (hsecond : FeedsAllowed c second) :
    FeedsAllowed c (fun cursor => do
      let node ← cursor.attach op
      first node
      second (node.sibling 1)) :=
  .attach hop fun _ => (hfirst _).bind fun _ => hsecond _

/-- Several drawings feed the operands of one operator. -/
theorem FeedsAllowed.operands {op : Operator Plan} {draws : List DrawInto} (hop : op.Within c)
    (hdraws : ∀ draw ∈ draws, FeedsAllowed c draw) :
    FeedsAllowed c (fun cursor => do
      let node ← cursor.attach op
      draws.zipIdx.forM fun (draw, operand) => draw (node.sibling operand)) :=
  .attach hop fun _ => keeps_forM fun e he => hdraws e.1 (List.fst_mem_of_mem_zipIdx he) _

/-- A draft without operators is within any capabilities. -/
theorem draft_within_empty (d : Draft) : d.cleared.Within c := by
  intro id op hop
  obtain ⟨-, rfl⟩ := Graph.eq_root_of_empty hop
  exact .plain (by decide)

/-- A nested plan stays within the capabilities of its body. -/
theorem plansAllowed_nestedPlan {vars : VarSet} {body : DrawInto} (hbody : FeedsAllowed c body) :
    PlansAllowed c (nestedPlan vars body) := by
  intro d hd plan d' hrun
  rw [nestedPlan_runOn] at hrun
  split at hrun
  · next inner hdrawn =>
    obtain ⟨hplan, rfl⟩ := Prod.mk.inj hrun
    refine ⟨hd, ?_⟩
    have hinner := (Draw.add_keeps (.plain (by simp [Operator.kind, Capabilities.gated]))).bind
      (fun result => hbody ⟨result, 0⟩) _ (draft_within_empty d) () inner hdrawn
    cases hfinish : Graph.updateVariables.runOn inner.graph with
    | mk outcome g =>
        rw [hfinish] at hplan
        cases outcome with
        | error e => cases hplan
        | ok u =>
            obtain rfl := Except.ok.inj hplan
            exact Plan.within_iff.2 (hinner.congr (Graph.updateVariables_eq_ok hfinish).2.operator?)
  · cases hrun

/-! ## Filters and modifiers -/

namespace Planner

/-- Attaching a filter stays within the capabilities of its nested plans. -/
theorem attachFilter_keeps {e : Expression} {nested : List (Draw Plan)} {cursor : Cursor}
    (hnested : ∀ draw ∈ nested, PlansAllowed c draw) :
    (p.attachFilter e nested cursor).Keeps (Draft.Within c) := by
  intro d hd cursor' d' hrun
  obtain ⟨plans, d₁, hplans, hattach⟩ := attachFilter_eq_ok hrun
  obtain ⟨hd₁, hwithin⟩ := yields_mapM hnested d hd plans d₁ hplans
  refine Cursor.attach_keeps ⟨Capabilities.allows_of_kind (by simp [filterOver, Operator.kind,
    Capabilities.gated]), fun e he => ?_⟩ { d₁ with nextSlot := d₁.nextSlot + 1 } hd₁ cursor' d'
      hattach
  obtain ⟨plan, hplan, rfl⟩ := List.mem_map.1 he
  exact hwithin plan.1 (List.fst_mem_of_mem_zipIdx hplan)

/-- Bindings need no capability. -/
theorem bindOperators_within (bindings : List Binding) :
    ∀ op ∈ bindOperators bindings, op.Within c := by
  intro op hop
  obtain ⟨b, -, rfl⟩ := List.mem_map.1 hop
  exact .plain (by simp [Operator.kind, Capabilities.gated])

/-- Checking the grouped outputs adds no operator. -/
theorem checkGrouping_keeps {o : Outputs} {selectsAll : Bool} {keys aggregates : List Variable} :
    (checkGrouping o selectsAll keys aggregates).Keeps (Draft.Within c) := by
  unfold checkGrouping
  refine keeps_optionally Draw.keeps_malformed ?_
  dsimp only
  split
  · exact fun _ _ => ends_bind.2 ends_throw
  · refine keeps_forM fun b _ => ?_
    split
    · exact Draw.keeps_malformed
    · exact keeps_pure

/-- A grouping key adds no operator beyond the capabilities. -/
theorem groupKey_keeps (key : GroupKey) : key.draw.Keeps (Draft.Within c) := by
  unfold GroupKey.draw
  split
  · exact keeps_pure
  · exact keeps_pure
  · exact Draw.freshVar_keeps.bind fun _ => keeps_pure

/-- Lifting an outcome that may be refused adds no operator. -/
theorem liftExcept_keeps {α : Type} {outcome : Except Error α} :
    (solutions.liftExcept outcome).Keeps (Draft.Within c) := by
  intro d hd a d' hrun
  obtain ⟨-, rfl⟩ := Prod.mk.inj (hrun : (outcome, d) = (.ok a, d'))
  exact hd

/-- The solution modifiers of a query need no capability of their own. -/
theorem feedsAllowed_solutions {form : QueryForm} {m : Modifiers} {nested : List (List (Draw Plan))}
    {pattern : DrawInto} (hnested : ∀ draws ∈ nested, ∀ draw ∈ draws, PlansAllowed c draw)
    (hpattern : FeedsAllowed c pattern) : FeedsAllowed c (p.solutions form m nested pattern) := by
  intro cursor d hd
  unfold solutions
  refine ends_bind.2 (ends_get.2 ?_)
  dsimp only
  split
  next o extraction hrun =>
  have hplain {op : Operator Plan} (hkind : op.kind ∈ [.limit, .offset, .distinct, .projection,
      .sort, .group]) : op.Within c :=
    .plain (by revert hkind; cases op.kind <;> decide)
  refine ends_bind.2 (ends_set.2 ?_)
  refine (keeps_mapM fun key _ => groupKey_keeps key).bind (fun grouped => ?_)
    { d with nextVar := extraction.nextVar } hd
  refine keeps_optionally checkGrouping_keeps ?_
  refine liftExcept_keeps.bind fun computed => liftExcept_keeps.bind fun keys => ?_
  refine (Cursor.attachAll_keeps ?_).bind fun c₁ => ?_
  · simp only [List.forall_mem_append]
    exact ⟨⟨⟨⟨⟨forall_mem_option fun _ => hplain (by simp [Operator.kind]),
      forall_mem_option fun _ => hplain (by simp [Operator.kind])⟩,
      forall_mem_ite (List.forall_mem_nil _) (List.forall_mem_singleton.2 (hplain (by decide)))⟩,
      forall_mem_option fun _ => hplain (by simp [Operator.kind])⟩,
      forall_mem_ite (List.forall_mem_nil _)
        (List.forall_mem_singleton.2 (hplain (by simp [Operator.kind])))⟩, bindOperators_within _⟩
  · refine (keeps_foldlM fun c₂ e he => attachFilter_keeps
      (hnested _ (List.of_mem_zip he).2)).bind fun c₃ => ?_
    refine (Cursor.attachAll_keeps ?_).bind fun c₄ => hpattern c₄
    simp only [List.forall_mem_append]
    exact ⟨forall_mem_ite (List.forall_mem_singleton.2 (hplain (by simp [Operator.kind])))
      (List.forall_mem_nil _), bindOperators_within _⟩

end Planner

/-! ## Segments -/

/-- All that a segment has gathered is within the capabilities. -/
abbrev Segment.GathersAllowed (c : Capabilities) (s : Segment) : Prop := s.Each (FeedsAllowed c)

/-- A probe is allowed where its graph is. -/
theorem feedsAllowed_probe (hgraph : c.namedGraphs = false → graph = none) :
    FeedsAllowed c fun cursor => cursor.attachSource (.probe graph) :=
  fun _ => Cursor.attachSource_keeps (Planner.probe_within hgraph)

namespace Segment.GathersAllowed

variable {s : Segment}

/-- A segment is allowed where its scans and its graph are. -/
theorem feedsAllowed (h : s.GathersAllowed c) (hscans : p.ScansPatterns)
    (hgraph : c.namedGraphs = false → graph = none) : FeedsAllowed c (s.draw p graph) :=
  h.good_draw (feedsAllowed_probe hgraph)
    (fun _ _ => Cursor.attachSource_keeps (Planner.scan_within hscans _ hgraph))
    fun _ hdraws => .operands (.plain (by decide)) hdraws

end Segment.GathersAllowed

/-! ## Parts of rule bodies -/

/-- A triple of a rule body is allowed where its scan is. -/
theorem feedsAllowed_ruleTriple (hscans : p.ScansPatterns)
    (hgraph : c.namedGraphs = false → graph = none) (t : TriplePattern) :
    FeedsAllowed c (ruleTriple p graph t) := fun _ =>
  (Cursor.attach_keeps (.plain (by decide))).bind fun _ =>
    (Cursor.attachSource_keeps (Planner.scan_within hscans _ hgraph)).bind fun _ =>
      (Draw.add_keeps (.plain (by simp [Operator.kind, Capabilities.gated]))).bind fun _ =>
        Cursor.feed_keeps.bind fun _ => fun _ hd => ends_modify.2 hd

/-- An atom of a rule body needs no capability. -/
theorem feedsAllowed_ruleAtom (a : Atom) : FeedsAllowed c (ruleAtom a) := fun _ =>
  (Draw.add_keeps (.plain (by simp [Operator.kind, Capabilities.gated]))).bind fun _ =>
    Keeps.bind (fun _ hd => ends_modify.2 hd) fun _ => Cursor.feed_keeps

/-- A property path adds what its capability allows. -/
theorem Segment.GathersAllowed.addPath {s : Segment} (h : s.GathersAllowed c)
    (hscans : p.ScansPatterns) (hgraph : c.namedGraphs = false → graph = none)
    (path : PathPattern) : (s.addPath p graph path).GathersAllowed c := by
  unfold Segment.addPath
  split
  · dsimp only
    split
    · exact h.addOther (feedsAllowed_ruleTriple hscans hgraph _)
    · exact h.addTriple _
  · have hpath : ∀ s o, (path.path.draw ⟨p, graph⟩ s o).Keeps (Draft.Within c) :=
      path.path.draw_allowed hscans hgraph
    exact h.addOther fun _ => (hpath _ _).bind fun _ => Cursor.feed_keeps

/-- Requiring that a nested query has no clause of its own adds no operator. -/
theorem requireNestable_keeps (q : Query) : q.requireNestable.Keeps (Draft.Within c) := by
  unfold Query.requireNestable
  dsimp only
  split
  · exact keeps_ite Draw.keeps_malformed keeps_pure
  · exact fun _ _ => ends_bind.2 ends_throw

/-! ## Groups -/

mutual

/-- A group is drawn within the capabilities, in the default graph or where graphs may be named. -/
theorem Group.feedsAllowed : (g : Group) → {p : Planner} → {graph : Option Item} →
    p.ScansPatterns → (p.config.capabilities.namedGraphs = false → graph = none) →
      FeedsAllowed p.config.capabilities (g.draw p graph)
  | ⟨elements⟩, p, graph, hscans, hgraph => fun cursor => by
      unfold Group.draw
      exact (drawFilters_keeps elements hscans hgraph cursor).bind fun cursor' =>
        (drawElements_gathersAllowed elements hscans hgraph .start).feedsAllowed hscans hgraph
          cursor'

/-- The filters of a group stay within the capabilities. -/
theorem drawFilters_keeps : (elements : List Element) → {p : Planner} → {graph : Option Item} →
    p.ScansPatterns → (p.config.capabilities.namedGraphs = false → graph = none) →
      (cursor : Cursor) →
        (drawFilters p graph elements cursor).Keeps (Draft.Within p.config.capabilities)
  | [], _, _, _, _, _ => keeps_pure
  | e :: rest, p, graph, hscans, hgraph, cursor => by
      cases e with
      | filter e =>
          unfold drawFilters
          exact (Planner.attachFilter_keeps (e.drawNested_allowed hscans hgraph)).bind
            fun cursor' => drawFilters_keeps rest hscans hgraph cursor'
      | _ => exact drawFilters_keeps rest hscans hgraph cursor

/-- The elements of a group stay within the capabilities. -/
theorem drawElements_gathersAllowed : (elements : List Element) → {p : Planner} →
    {graph : Option Item} → p.ScansPatterns →
    (p.config.capabilities.namedGraphs = false → graph = none) →
      {s : Segment} → s.GathersAllowed p.config.capabilities →
        (drawElements p graph elements s).GathersAllowed p.config.capabilities
  | [], _, _, _, _, _, hs => hs
  | e :: rest, _, _, hscans, hgraph, _, hs =>
      drawElements_gathersAllowed rest hscans hgraph
        ((e.draw_gathersAllowed hscans hgraph hs).scope _)

/-- A segment that is extended by an element is still within the capabilities. What needs an ability
is drawn behind a check, and only there. -/
theorem Element.draw_gathersAllowed : (e : Element) → {p : Planner} → {graph : Option Item} →
    p.ScansPatterns → (p.config.capabilities.namedGraphs = false → graph = none) →
      {s : Segment} → s.GathersAllowed p.config.capabilities →
        (e.draw p graph s).GathersAllowed p.config.capabilities
  | .triple t, p, graph, hscans, hgraph, s, hs => by
      unfold Element.draw
      split
      · exact hs.addOther (feedsAllowed_ruleTriple hscans hgraph t)
      · exact hs.addTriple t
  | .path path, p, graph, hscans, hgraph, _, hs => hs.addPath hscans hgraph path
  | .group g, p, graph, hscans, hgraph, s, hs => hs.addOther (g.feedsAllowed hscans hgraph)
  | .union branches, p, graph, hscans, hgraph, _, hs => by
      have hbranches := drawBranches_allowed branches hscans hgraph
      exact hs.addOther (DrawInto.good_several hbranches (feedsAllowed_probe hgraph)
        (.operands (.plain (by decide)) hbranches))
  | .optional g, p, graph, hscans, hgraph, s, hs =>
      .close (.both (.plain (by decide)) (hs.feedsAllowed hscans hgraph)
        (g.feedsAllowed hscans hgraph))
  | .minus g, p, graph, hscans, hgraph, s, hs =>
      .close (.both (.plain (by decide)) (hs.feedsAllowed hscans hgraph)
        (g.feedsAllowed hscans hgraph))
  | .bind e target, p, graph, hscans, hgraph, s, hs =>
      .close fun cursor => keeps_optionally Draw.keeps_malformed <|
        keeps_optionally Draw.keeps_unsupported <|
          FeedsAllowed.attach (.plain (by simp [Operator.kind, Capabilities.gated]))
            (hs.feedsAllowed hscans hgraph) cursor
  | .graph name g, p, graph, hscans, hgraph, s, hs =>
      hs.addOther fun cursor => (Planner.yields_require _ _).bind fun _ hnamed =>
        g.feedsAllowed hscans (fun h => absurd hnamed (by simp [h])) cursor
  | .filter _, _, _, _, _, _, hs => hs
  | .subSelect q, p, graph, hscans, hgraph, s, hs =>
      hs.addOther fun cursor => (requireNestable_keeps q).bind fun _ =>
        q.feedsAllowed hscans hgraph cursor
  | .service endpoint g silent, p, graph, hscans, hgraph, s, hs =>
      hs.addOther fun cursor => (Planner.yields_require _ _).bind fun _ hremote =>
        Cursor.attachSource_keeps <| .of_allows
          ⟨fun _ => trivial, fun h => absurd hremote (by simp [h]), fun _ => nofun⟩ rfl
  | .window w g, p, graph, hscans, hgraph, s, hs =>
      hs.addOther fun cursor => (Planner.yields_require _ _).bind fun _ hstreams =>
        have hwindow : (Operator.window w).Within p.config.capabilities := .of_allows
          ⟨fun _ => trivial, fun _ => nofun, fun h => absurd hstreams (by simp [h])⟩ rfl
        FeedsAllowed.attach hwindow (g.feedsAllowed hscans hgraph) cursor
  | .atom a, p, graph, hscans, hgraph, s, hs => by
      refine hs.addOther fun cursor => ?_
      split
      · exact feedsAllowed_ruleAtom a cursor
      · exact Draw.keeps_malformed

/-- Every branch of an alternative stays within the capabilities. -/
theorem drawBranches_allowed : (branches : List Group) → {p : Planner} → {graph : Option Item} →
    p.ScansPatterns → (p.config.capabilities.namedGraphs = false → graph = none) →
      ∀ draw ∈ drawBranches p graph branches, FeedsAllowed p.config.capabilities draw
  | [], _, _, _, _, _, h => absurd h List.not_mem_nil
  | g :: rest, p, graph, hscans, hgraph, draw, h => by
      rcases List.mem_cons.1 h with rfl | h
      · exact g.feedsAllowed hscans hgraph
      · exact drawBranches_allowed rest hscans hgraph draw h

/-- A query feeds its solutions within the capabilities. -/
theorem Query.feedsAllowed : (q : Query) → {p : Planner} → {graph : Option Item} →
    p.ScansPatterns → (p.config.capabilities.namedGraphs = false → graph = none) →
      FeedsAllowed p.config.capabilities (q.drawSolutions p graph)
  | ⟨_, _, some g, ⟨_, having, _, _, _⟩⟩, _, _, hscans, hgraph =>
      Planner.feedsAllowed_solutions (drawNestedOf_allowed having hscans hgraph)
        (g.feedsAllowed hscans hgraph)
  | ⟨_, _, none, ⟨_, having, _, _, _⟩⟩, _, _, hscans, hgraph =>
      Planner.feedsAllowed_solutions (drawNestedOf_allowed having hscans hgraph)
        (feedsAllowed_probe hgraph)

/-- The plans for existence patterns are drawn in the graph of the filter. -/
theorem Expression.drawNested_allowed : (e : Expression) → {p : Planner} → {graph : Option Item} →
    p.ScansPatterns → (p.config.capabilities.namedGraphs = false → graph = none) →
      ∀ draw ∈ e.drawNested p graph, PlansAllowed p.config.capabilities draw
  | .existence _ g, p, graph, hscans, hgraph, draw, hdraw => by
      rw [List.mem_singleton.1 hdraw]
      exact plansAllowed_nestedPlan
        (g.feedsAllowed (p := { p with inRules := false }) hscans hgraph)
  | .binary l _ r, p, graph, hscans, hgraph, draw, hdraw => by
      rcases List.mem_append.1 hdraw with hdraw | hdraw
      · exact l.drawNested_allowed hscans hgraph draw hdraw
      · exact r.drawNested_allowed hscans hgraph draw hdraw
  | .unary _ e, _, _, hscans, hgraph, draw, hdraw => e.drawNested_allowed hscans hgraph draw hdraw
  | .call _ args, _, _, hscans, hgraph, draw, hdraw => by
      obtain ⟨draws, hdraws, hdraw⟩ := List.mem_flatten.1 hdraw
      exact drawNestedOf_allowed args hscans hgraph draws hdraws draw hdraw
  | .constant _, _, _, _, _, _, h | .variable _, _, _, _, _, _, h | .bound _, _, _, _, _, _, h
  | .aggregate _, _, _, _, _, _, h => absurd h List.not_mem_nil

/-- The groups of existence filters stay within the capabilities. -/
theorem drawNestedOf_allowed : (es : List Expression) → {p : Planner} → {graph : Option Item} →
    p.ScansPatterns → (p.config.capabilities.namedGraphs = false → graph = none) →
      ∀ draws ∈ drawNestedOf p graph es, ∀ draw ∈ draws, PlansAllowed p.config.capabilities draw
  | [], _, _, _, _, _, h => absurd h List.not_mem_nil
  | e :: rest, _, _, hscans, hgraph, draws, h => by
      rcases List.mem_cons.1 h with rfl | h
      · exact e.drawNested_allowed hscans hgraph
      · exact drawNestedOf_allowed rest hscans hgraph draws h

end

end QuadAlgebra
