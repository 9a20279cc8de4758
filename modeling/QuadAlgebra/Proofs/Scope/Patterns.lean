import QuadAlgebra.Proofs.Scope.Selections

/-!
# Labels of patterns

Every element of a group feeds its cursor with rows that bind nothing but the variables that the
element adds to the scope and the variable of the graph that it is drawn in. So a group feeds its
cursor with rows that bind nothing but its scope and that variable (`Group.feedsWithin`), in the
bodies of rules and elsewhere. The proof is a mutual induction over everything that may be nested in
a group.
-/

namespace QuadAlgebra

/-- All that a segment has gathered binds nothing but the given variables. -/
structure Segment.Within (V : Set Variable) (s : Segment) : Prop
    extends s.Each (FeedsWithin V) where
  triples : ∀ t ∈ s.triples, ∀ v ∈ t.vars, v ∈ V

section Segments

variable {V : Set Variable} {s : Segment} {draw : DrawInto} {p : Planner} {graph : Option Item}

namespace Segment.Within

/-- Nothing has been gathered to start with. -/
theorem start : Segment.start.Within V := ⟨.start, fun _ h => absurd h List.not_mem_nil⟩

/-- A triple may bind the variables that it mentions. -/
theorem addTriple (h : s.Within V) {t : TriplePattern} (ht : ∀ v ∈ t.vars, v ∈ V) :
    (s.addTriple t).Within V := by
  refine ⟨h.toEach.addTriple t, fun t' ht' => ?_⟩
  rcases List.mem_append.1 ht' with ht' | ht'
  · exact h.triples t' ht'
  · exact List.mem_singleton.1 ht' ▸ ht

theorem addOther (h : s.Within V) (hdraw : FeedsWithin V draw) : (s.addOther draw).Within V :=
  ⟨h.toEach.addOther hdraw, h.triples⟩

theorem close (hdraw : FeedsWithin V draw) : (s.close draw).Within V :=
  ⟨.close hdraw, fun _ h => absurd h List.not_mem_nil⟩

/-- A segment binds nothing but the variables that it has gathered and that of its graph. -/
theorem feedsWithin (h : s.Within V) (hp : p.ReadsStore)
    (hgraph : ∀ v ∈ Item.vars graph.toList, v ∈ V) : FeedsWithin V (s.draw p graph) :=
  h.good_draw (.attachSource (Operator.fits_probe hgraph))
    (fun _ => .attachSource (hp.fits_scan h.triples hgraph))
    fun _ hdraws => .overAll Operator.fits_join hdraws

end Segment.Within

/-! ## Parts of rule bodies -/

theorem keepsLabels_remember {f : Draft → Draft} (hf : ∀ d, (f d).graph = d.graph)
    {old : Graph Plan} {L : Labels} :
    KeepsLabels old L (modify f : Draw PUnit) noClaim :=
  .of_graph_eq fun d _ _ hrun => (Prod.mk.inj hrun).2 ▸ hf d

theorem feedsWithin_ruleTriple (hp : p.ReadsStore) {t : TriplePattern}
    (ht : ∀ v ∈ t.vars, v ∈ V) (hgraph : ∀ v ∈ Item.vars graph.toList, v ∈ V) :
    FeedsWithin V (ruleTriple p graph t) := by
  refine fun old L c hc => (KeepsLabels.attach .union _ Operator.fits_union hc).bind
    fun union _ _ hunion => ?_
  refine (KeepsLabels.attachSource _ (hp.fits_scan (List.forall_mem_singleton.2 ht) hgraph)
    (hunion.takes union.operand)).bind fun _ _ hle _ => ?_
  refine (KeepsLabels.add _ _ (Operator.fits_matchTriple ht)).bind fun matcher _ hle' hmatcher => ?_
  refine (KeepsLabels.feed hmatcher.emits (((hunion.mono hle).mono hle').takes 1)).bind
    fun _ _ _ _ => keepsLabels_remember ?_
  exact fun _ => rfl

theorem feedsWithin_ruleAtom {a : Atom} (ha : ∀ v ∈ a.vars, v ∈ V) :
    FeedsWithin V (ruleAtom a) := by
  refine fun old L c hc => (KeepsLabels.add _ _ (Operator.fits_matchAtom ha)).bind
    fun matcher _ hle hmatcher => ?_
  refine KeepsLabels.bind (keepsLabels_remember ?_) fun _ _ hle' _ =>
    .feed (hmatcher.mono hle').emits ((hc.mono hle).mono hle')
  exact fun _ => rfl

theorem Segment.Within.addPath (h : s.Within V) (hp : p.ReadsStore) {path : PathPattern}
    (hpath : ∀ v ∈ Item.vars [path.subject, path.object], v ∈ V)
    (hgraph : ∀ v ∈ Item.vars graph.toList, v ∈ V) : (s.addPath p graph path).Within V := by
  unfold Segment.addPath
  split
  · next iri _ =>
    dsimp only
    have ht : ∀ v ∈ (⟨path.subject, .term iri, path.object⟩ : TriplePattern).vars, v ∈ V :=
      fun v hv => hpath v (by
        rw [TriplePattern.vars, Item.mem_vars] at hv
        rw [Item.mem_vars]
        simpa [TriplePattern.items] using hv)
    split
    · exact h.addOther (feedsWithin_ruleTriple hp ht hgraph)
    · exact h.addTriple ht
  · have hwithin : PathWithin ⟨p, graph⟩ (path.path.draw ⟨p, graph⟩) := path.path.within hp
    refine h.addOther ((FeedsWithin.feed fun old L =>
      hwithin old L path.subject path.object).weaken fun v hv => ?_)
    rcases PathPlanner.mem_ends.1 hv with hv | hv | hv
    · exact hpath v (Item.mem_vars.2 (hv ▸ List.mem_cons_self))
    · exact hpath v (Item.mem_vars.2 (hv ▸ List.mem_cons_of_mem _ List.mem_cons_self))
    · exact hgraph v (Item.mem_vars.2 hv)

end Segments

/-! ## All patterns -/

section Nesting

variable {q : Query} {old : Graph Plan} {L : Labels}

/-- Only selections may stand inside a pattern. -/
theorem keepsLabels_requireNestable :
    KeepsLabels old L q.requireNestable fun _ _ => ∃ repeated items,
      q.form = .select repeated items := by
  unfold Query.requireNestable
  dsimp only
  split
  · next repeated items hform =>
    exact .ite (fun _ => .malformed) fun _ => .pure ⟨repeated, items, hform⟩
  · exact .stopped

end Nesting

mutual

/-- A group feeds its cursor with rows that bind nothing but the variables in its scope and the
variable of the graph that it is drawn in. -/
theorem Group.feedsWithin : (g : Group) → {p : Planner} → {graph : Option Item} →
    {V : Set Variable} → p.ReadsStore → (∀ v ∈ g.scope, v ∈ V) →
      (∀ v ∈ Item.vars graph.toList, v ∈ V) → FeedsWithin V (g.draw p graph)
  | ⟨elements⟩, _, _, _, hp, hscope, hgraph => fun old L c hc => by
      unfold Group.draw
      exact (keepsLabels_drawFilters elements hc).bind fun c₁ L₁ _ hc₁ =>
        (drawElements_within elements hp hscope hgraph .start).feedsWithin hp hgraph old L₁ c₁ hc₁

theorem keepsLabels_drawFilters : (elements : List Element) → {p : Planner} →
    {graph : Option Item} → {V : Set Variable} → {c : Cursor} →
      {old : Graph Plan} → {L : Labels} → L.Takes c V →
        KeepsLabels old L (drawFilters p graph elements c) fun L' c' => L'.Takes c' V
  | [], _, _, _, _, _, _, hc => .pure hc
  | e :: rest, p, graph, V, c, old, L, hc => by
      cases e with
      | filter e =>
          unfold drawFilters
          exact (keepsLabels_attachFilter (e.drawNested_aside p graph) hc).bind
            fun _ _ _ hc₁ => keepsLabels_drawFilters rest hc₁
      | _ => exact keepsLabels_drawFilters rest hc

theorem drawElements_within : (elements : List Element) → {p : Planner} →
    {graph : Option Item} → {V : Set Variable} → p.ReadsStore →
      (∀ v ∈ elementsScope elements, v ∈ V) → (∀ v ∈ Item.vars graph.toList, v ∈ V) →
        {s : Segment} → s.Within V → (drawElements p graph elements s).Within V
  | [], _, _, _, _, _, _, _, hs => hs
  | e :: rest, _, _, _, hp, hscope, hgraph, _, hs =>
      have hstep := e.draw_within hp (fun v hv => hscope v (OrdSet.mem_union.2 (.inl hv))) hgraph hs
      drawElements_within rest hp (fun v hv => hscope v (OrdSet.mem_union.2 (.inr hv))) hgraph
        ⟨hstep.scope _, hstep.triples⟩

theorem Element.draw_within : (e : Element) → {p : Planner} → {graph : Option Item} →
    {V : Set Variable} → p.ReadsStore → (∀ v ∈ e.scope, v ∈ V) →
      (∀ v ∈ Item.vars graph.toList, v ∈ V) → {s : Segment} → s.Within V →
        (e.draw p graph s).Within V
  | .triple t, _, _, _, hp, hscope, hgraph, s, hs => by
      unfold Element.draw
      split
      · exact hs.addOther (feedsWithin_ruleTriple hp hscope hgraph)
      · exact hs.addTriple hscope
  | .path path, _, _, _, hp, hscope, hgraph, _, hs => hs.addPath hp hscope hgraph
  | .group g, _, _, _, hp, hscope, hgraph, _, hs => hs.addOther (g.feedsWithin hp hscope hgraph)
  | .union branches, _, _, _, hp, hscope, hgraph, _, hs => by
      have hbranches := drawBranches_within branches hp hscope hgraph
      exact hs.addOther (DrawInto.good_several hbranches
        (.attachSource (Operator.fits_probe hgraph)) (.overAll Operator.fits_union hbranches))
  | .optional g, _, _, _, hp, hscope, hgraph, _, hs =>
      .close (.overTwo Operator.fits_optional (fun _ => subset_rfl) (hs.feedsWithin hp hgraph)
        (g.feedsWithin hp hscope hgraph))
  | .minus g, _, _, _, hp, _, hgraph, _, hs =>
      .close (.overTwo Operator.fits_minus (fun _ _ hv _ => hv) (hs.feedsWithin hp hgraph)
        (g.feedsWithin hp (fun _ _ h => absurd h Nat.one_ne_zero)
          fun _ _ h => absurd h Nat.one_ne_zero))
  | .bind e target, _, _, _, hp, hscope, hgraph, _, hs => .close fun old L c hc =>
      FeedsWithin.optionally .malformed fun _ hle => FeedsWithin.optionally .unsupported
        fun _ hle' => FeedsWithin.attach
          (Operator.fits_bind e (hscope target (OrdSet.mem_singleton.2 rfl)))
          (hs.feedsWithin hp hgraph) _ _ c (hc.mono (hle.trans hle'))
  | .graph name g, _, _, _, hp, hscope, _, _, hs =>
      hs.addOther (.after (fun _ _ => .require) (g.feedsWithin hp
        (fun v hv => hscope v (OrdSet.mem_union.2 (.inr hv)))
        fun v hv => hscope v (OrdSet.mem_union.2 (.inl hv))))
  | .filter _, _, _, _, _, _, _, _, hs => hs
  | .subSelect q, _, _, _, hp, hscope, hgraph, _, hs => hs.addOther fun old L c hc =>
      keepsLabels_requireNestable.bind fun _ L₁ hle ⟨_, _, hform⟩ =>
        q.feedsWithin hp hform hscope hgraph old L₁ c (hc.mono hle)
  | .service endpoint g silent, _, _, _, _, _, _, _, hs =>
      hs.addOther (.after (fun _ _ => .require)
        (.attachSource (Operator.fits_service endpoint g silent)))
  | .window w g, _, _, _, hp, hscope, hgraph, _, hs =>
      hs.addOther (.after (fun _ _ => .require)
        (.attach (Operator.fits_window w) (g.feedsWithin hp hscope hgraph)))
  | .atom a, _, _, _, _, hscope, _, _, hs => by
      refine hs.addOther fun old L c hc => ?_
      split
      · exact feedsWithin_ruleAtom hscope old L c hc
      · exact .malformed

theorem drawBranches_within : (branches : List Group) → {p : Planner} → {graph : Option Item} →
    {V : Set Variable} → p.ReadsStore → (∀ v ∈ groupsScope branches, v ∈ V) →
      (∀ v ∈ Item.vars graph.toList, v ∈ V) →
        ∀ draw ∈ drawBranches p graph branches, FeedsWithin V draw
  | [], _, _, _, _, _, _, _, h => absurd h List.not_mem_nil
  | g :: rest, _, _, _, hp, hscope, hgraph, draw, h => by
      rcases List.mem_cons.1 h with rfl | h
      · exact g.feedsWithin hp (fun v hv => hscope v (OrdSet.mem_union.2 (.inl hv))) hgraph
      · exact drawBranches_within rest hp (fun v hv => hscope v (OrdSet.mem_union.2 (.inr hv)))
          hgraph draw h

/-- A selection feeds its cursor with rows that bind nothing but what it shows. -/
theorem Query.feedsWithin : (q : Query) → {p : Planner} → {graph : Option Item} →
    {V : Set Variable} → p.ReadsStore → {repeated : Duplicates} → {items : Selection} →
      q.form = .select repeated items → (∀ v ∈ q.scope, v ∈ V) →
        (∀ v ∈ Item.vars graph.toList, v ∈ V) → FeedsWithin V (q.drawSolutions p graph)
  | ⟨_, _, some g, ⟨_, having, _, _, _⟩⟩, p, graph, _, hp, _, items, hform, hscope, hgraph => by
      obtain rfl := hform
      cases items with
      | explicit items =>
          exact Planner.feedsWithin_explicit (drawNestedOf_aside p graph having)
            (fun _ hi => hscope _ (OrdSet.mem_ofList.2 (List.mem_map_of_mem hi)))
            (g.feedsWithin hp (fun _ _ => trivial) fun _ _ => trivial)
      | wildcard =>
          exact Planner.feedsWithin_wildcard (drawNestedOf_aside p graph having)
            (g.feedsWithin hp hscope hgraph)
  | ⟨_, _, none, ⟨_, having, _, _, _⟩⟩, p, graph, _, _, _, items, hform, hscope, hgraph => by
      obtain rfl := hform
      cases items with
      | explicit items =>
          exact Planner.feedsWithin_explicit (drawNestedOf_aside p graph having)
            (fun _ hi => hscope _ (OrdSet.mem_ofList.2 (List.mem_map_of_mem hi)))
            (.attachSource (Operator.fits_univ nofun))
      | wildcard =>
          exact Planner.feedsWithin_wildcard (drawNestedOf_aside p graph having)
            (.attachSource (Operator.fits_probe hgraph))

end

end QuadAlgebra
