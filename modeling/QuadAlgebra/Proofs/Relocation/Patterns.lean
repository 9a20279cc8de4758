import QuadAlgebra.Planning.Pattern
import QuadAlgebra.Proofs.Relocation.Paths

/-!
# Patterns drawn elsewhere

Every pattern is planned alike in a plan of its own and inside a larger plan (`Group.mirrors_draw`).
-/

namespace QuadAlgebra

open Site

variable {s : Site}

/-! ## Ways to feed a cursor -/

namespace Site.MirrorsInto

variable {draw : DrawInto}

/-- A source is attached alike at both places. -/
theorem attachSource (op : Operator Plan) (hop : op.kind ≠ .result) :
    s.MirrorsInto (fun c => c.attachSource op) := fun _ _ hc => mirrors_attachSource hop hc

/-- What is attached below an operator is drawn alike at both places. -/
theorem attach (op : Operator Plan) (hop : op.kind ≠ .result) (hdraw : s.MirrorsInto draw) :
    s.MirrorsInto (fun c => do draw (← c.attach op)) := fun _ _ hc =>
  (mirrors_attach hop hc).bind fun _ _ h => hdraw _ _ h.feeds

/-- A producer that is drawn alike feeds corresponding cursors. -/
theorem feed {producer : Draw OperatorId} (h : s.MirrorsProducer producer) :
    s.MirrorsInto (fun c => do c.feed (← producer)) := fun _ _ hc =>
  h.bind fun _ _ hid => mirrors_feed hc hid.sourced

/-- A drawing behind a check. -/
theorem after {check : Draw Unit} (hcheck : s.MirrorsSelf check) (hdraw : s.MirrorsInto draw) :
    s.MirrorsInto (fun c => do check; draw c) :=
  fun _ _ hc => hcheck.bind fun _ => hdraw _ _ hc

/-- Two drawings feed the operands of one operator. -/
theorem both (op : Operator Plan) {other : DrawInto} (hop : op.kind ≠ .result)
    (hdraw : s.MirrorsInto draw) (hother : s.MirrorsInto other) :
    s.MirrorsInto (fun c => do
      let node ← c.attach op
      draw node
      other (node.sibling 1)) := fun _ _ hc =>
  (mirrors_attach hop hc).bind fun _ _ h =>
    (hdraw _ _ h.feeds).bind fun _ _ _ => hother _ _ (h.sibling 1).feeds

/-- Any number of drawings feed the operands of one operator. -/
theorem operands (op : Operator Plan) {draws : List DrawInto} (hop : op.kind ≠ .result)
    (hdraws : ∀ draw ∈ draws, s.MirrorsInto draw) :
    s.MirrorsInto (fun c => do
      let node ← c.attach op
      draws.zipIdx.forM fun (draw, operand) => draw (node.sibling operand)) := by
  intro c c' hc
  refine (mirrors_attach hop hc).bind fun node node' h => ?_
  have hsame : List.Forall₂ (fun a b : DrawInto × Nat => a = b ∧ s.MirrorsInto a.1) draws.zipIdx
      draws.zipIdx := by
    refine List.forall₂_same.2 fun x hx => ⟨rfl, hdraws _ ?_⟩
    exact (List.mem_zipIdx' hx).2 ▸ List.getElem_mem _
  refine mirrors_forM hsame fun (draw, k) (draw', k') hab => ?_
  obtain ⟨hsame, hdraw⟩ := hab
  obtain ⟨rfl, rfl⟩ := Prod.mk.inj hsame
  exact hdraw _ _ (h.sibling k).feeds

end Site.MirrorsInto

/-! ## Numbers -/

/-- What follows starts from the state that has been set. -/
theorem Edit.runOn_set_bind {σ α : Type} (t : σ) (f : PUnit → Edit σ α) (s : σ) :
    (set t >>= f).runOn s = (f ⟨⟩).runOn t := rfl

/-- Drawings that look at the draft and go on in a changed one. -/
theorem Site.mirrors_get {α β : Type} {related : α → β → Prop} {f : Draft → Draw α}
    {f' : Draft → Draw β}
    (h : ∀ d e, s.Carries d e → ∃ x y d₁ e₁, (f d).runOn d = x.runOn d₁ ∧
      (f' e).runOn e = y.runOn e₁ ∧ s.Carries d₁ e₁ ∧ s.Mirrors related x y) :
    s.Mirrors related (get >>= f) (get >>= f') := by
  intro d e hde b e' hrun
  obtain ⟨x, y, d₁, e₁, hx, hy, hde₁, hxy⟩ := h d e hde
  obtain ⟨a, d', hrunx, hab, hde'⟩ := hxy d₁ e₁ hde₁ b e' (hy.symm.trans hrun)
  exact ⟨a, d', hx.trans hrunx, hab, hde'⟩

/-! ## Filters and modifiers -/

namespace Planner

variable {p : Planner} {c c' : Cursor}

/-- A filter is attached to corresponding cursors. -/
theorem mirrors_attachFilter {condition : Expression} {nested : List (Draw Plan)}
    (hnested : ∀ x ∈ nested, s.MirrorsSelf x) (hc : s.Feeds c c') :
    s.Mirrors s.Feeds (p.attachFilter condition nested c) (p.attachFilter condition nested c') := by
  unfold attachFilter
  refine (mirrorsSelf_mapM hnested).bind fun plans => ?_
  dsimp only
  split
  · exact mirrors_throw_bind
  · refine mirrors_get fun d e hde => ?_
    rw [hde.nextSlot]
    refine ⟨_, _, _, _, Edit.runOn_set_bind _ _ _, Edit.runOn_set_bind _ _ _,
      ⟨hde.holds, hde.nextVar, rfl⟩, ?_⟩
    refine (mirrors_attach ?_ hc).mono fun _ _ h => h.feeds
    exact Kind.noConfusion

theorem mirrorsSelf_require {enabled : Bool} {feature : String} :
    s.MirrorsSelf (require enabled feature) := by
  unfold require
  split
  · exact mirrorsSelf_pure ()
  · exact mirrorsSelf_throw _

/-- A grouping key is drawn without looking at the graph. -/
theorem mirrorsSelf_groupKey (key : GroupKey) : s.MirrorsSelf key.draw := by
  unfold GroupKey.draw
  split
  · exact mirrorsSelf_pure _
  · exact mirrorsSelf_pure _
  · exact mirrorsSelf_freshVar.bind fun v => mirrors_pure rfl

/-- Whether a selection may be grouped is decided without looking at the graph. -/
theorem mirrorsSelf_checkGrouping {o : Outputs} {selectsAll : Bool}
    {keys aggregates : List Variable} :
    s.MirrorsSelf (checkGrouping o selectsAll keys aggregates) := by
  unfold checkGrouping
  refine mirrors_optionally mirrors_throw ?_
  dsimp only
  split
  · exact mirrors_throw_bind
  · refine mirrors_forM (List.forall₂_same.2 fun _ _ => rfl) fun b b' hb => ?_
    subst hb
    split
    · exact mirrors_throw
    · exact mirrors_pure rfl

theorem mirrorsSelf_liftExcept {α : Type} {outcome : Except Error α} :
    s.MirrorsSelf (solutions.liftExcept outcome) := by
  intro d e hde b e' hrun
  obtain ⟨hb, rfl⟩ := Prod.mk.inj (hrun : (outcome, e) = (.ok b, e'))
  exact ⟨b, d, Prod.ext hb rfl, rfl, hde⟩

/-- An operator that may be missing is no result. -/
theorem kind_ne_result_of_option {α : Type} {x : Option α} {f : α → Operator Plan}
    (hf : ∀ a, (f a).kind ≠ .result) : ∀ op ∈ (x.map f).toList, op.kind ≠ .result := by
  intro op hop
  obtain ⟨a, -, rfl⟩ := Option.map_eq_some_iff.1 (Option.mem_toList.1 hop)
  exact hf a

/-- Operators of two alternatives are no results. -/
theorem kind_ne_result_of_ite {cond : Prop} [Decidable cond] {ops ops' : List (Operator Plan)}
    (h : ∀ op ∈ ops, op.kind ≠ .result) (h' : ∀ op ∈ ops', op.kind ≠ .result) :
    ∀ op ∈ if cond then ops else ops', op.kind ≠ .result := by
  split
  · exact h
  · exact h'

/-- Operators for bindings are no results. -/
theorem bindOperators_kind_ne (bindings : List Binding) :
    ∀ op ∈ bindOperators bindings, op.kind ≠ .result := by
  intro op hop
  obtain ⟨b, -, rfl⟩ := List.mem_map.1 hop
  exact Kind.noConfusion

/-- Conditions are attached one below the other, at corresponding cursors. -/
theorem mirrors_attachFilters {conditions : List Expression} {nested : List (List (Draw Plan))}
    (hnested : ∀ draws ∈ nested, ∀ x ∈ draws, s.MirrorsSelf x) (hc : s.Feeds c c') :
    s.Mirrors s.Feeds ((conditions.zip nested).foldlM (fun c (condition, plans) =>
      p.attachFilter condition plans c) c) ((conditions.zip nested).foldlM
        (fun c (condition, plans) => p.attachFilter condition plans c) c') :=
  mirrors_foldlM hc fun _ _ hab (_, plans) hx =>
    mirrors_attachFilter (hnested plans (List.of_mem_zip hx).2) hab

/-- The layers of a query are drawn alike if its pattern is. -/
theorem mirrors_solutions {form : QueryForm} {m : Modifiers} {nested : List (List (Draw Plan))}
    {pattern : DrawInto} (hnested : ∀ draws ∈ nested, ∀ x ∈ draws, s.MirrorsSelf x)
    (hpattern : s.MirrorsInto pattern) : s.MirrorsInto (p.solutions form m nested pattern) := by
  intro c c' hc
  have hnil : ∀ op ∈ ([] : List (Operator Plan)), op.kind ≠ .result :=
    fun _ h => absurd h List.not_mem_nil
  have hone {op : Operator Plan} (hop : op.kind ≠ .result) : ∀ x ∈ [op], x.kind ≠ .result :=
    fun x hx => List.mem_singleton.1 hx ▸ hop
  unfold solutions
  dsimp only
  refine mirrors_get fun d e hde => ?_
  rw [hde.nextVar]
  split
  next o extraction _ =>
  refine ⟨_, _, _, _, Edit.runOn_set_bind _ _ _, Edit.runOn_set_bind _ _ _,
    ⟨hde.holds, rfl, hde.nextSlot⟩, ?_⟩
  refine (mirrorsSelf_mapM fun key _ => mirrorsSelf_groupKey key).bind fun grouped => ?_
  refine mirrors_optionally mirrorsSelf_checkGrouping ?_
  refine mirrorsSelf_liftExcept.bind fun computed => mirrorsSelf_liftExcept.bind fun keys => ?_
  refine (mirrors_attachAll ?_ hc).bind fun c₁ c₁' hc₁ => ?_
  · simp only [List.forall_mem_append]
    exact ⟨⟨⟨⟨⟨kind_ne_result_of_option fun _ => Kind.noConfusion,
      kind_ne_result_of_option fun _ => Kind.noConfusion⟩,
      kind_ne_result_of_ite hnil (hone Kind.noConfusion)⟩,
      kind_ne_result_of_option fun _ => Kind.noConfusion⟩,
      kind_ne_result_of_ite hnil (hone Kind.noConfusion)⟩, bindOperators_kind_ne _⟩
  · refine (mirrors_attachFilters hnested hc₁).bind fun c₂ c₂' hc₂ => ?_
    refine (mirrors_attachAll ?_ hc₂).bind fun c₃ c₃' hc₃ => hpattern c₃ c₃' hc₃
    simp only [List.forall_mem_append]
    exact ⟨kind_ne_result_of_ite (hone Kind.noConfusion) hnil, bindOperators_kind_ne _⟩

end Planner

/-! ## Segments -/

/-- All that a segment has gathered is drawn alike. -/
abbrev Segment.Mirrored (s : Site) (g : Segment) : Prop := g.Each s.MirrorsInto

/-- A segment is drawn alike at both places. -/
theorem Segment.Mirrored.mirrors_draw {g : Segment} (h : g.Mirrored s) (p : Planner)
    (graph : Option Item) : s.MirrorsInto (g.draw p graph) :=
  h.good_draw (.attachSource _ Kind.noConfusion) (fun _ => .attachSource _ Kind.noConfusion)
    fun _ hdraws => .operands .join Kind.noConfusion hdraws

/-! ## Parts of rule bodies -/

/-- A triple pattern of a rule is matched with what heads derive, and remembered under its place. -/
theorem mirrors_ruleTriple (p : Planner) (graph : Option Item) (t : TriplePattern) :
    s.MirrorsInto (ruleTriple p graph t) := by
  intro c c' hc
  refine (mirrors_attach Kind.noConfusion hc).bind fun union union' hunion => ?_
  refine (mirrors_attachSource Kind.noConfusion hunion.feeds).bind fun _ _ _ => ?_
  refine (mirrors_add Kind.noConfusion).bind fun matcher matcher' hmatcher => ?_
  exact (mirrors_feed (hunion.sibling 1).feeds hmatcher.sourced).bind fun _ _ _ =>
    mirrors_modify fun _ _ h => ⟨h.holds, h.nextVar, h.nextSlot⟩

theorem mirrors_ruleAtom (a : Atom) : s.MirrorsInto (ruleAtom a) := by
  intro c c' hc
  refine (mirrors_add Kind.noConfusion).bind fun _ _ hmatcher => ?_
  refine Mirrors.bind (mirrors_modify ?_) fun _ _ _ => mirrors_feed hc hmatcher.sourced
  exact fun _ _ h => ⟨h.holds, h.nextVar, h.nextSlot⟩

/-- A path joins what has been gathered. -/
theorem Segment.Mirrored.addPath {g : Segment} (h : g.Mirrored s) (p : Planner)
    (graph : Option Item) (path : PathPattern) : (g.addPath p graph path).Mirrored s := by
  unfold Segment.addPath
  split
  · dsimp only
    split
    · exact h.addOther (mirrors_ruleTriple p graph _)
    · exact h.addTriple _
  · exact h.addOther (.feed (path.path.mirrors_draw _ _ _))

theorem Query.mirrorsSelf_requireNestable (q : Query) : s.MirrorsSelf q.requireNestable := by
  unfold Query.requireNestable
  dsimp only
  split <;> split
  · exact mirrors_throw
  · exact mirrors_pure rfl
  · exact mirrors_throw_bind
  · exact mirrors_throw_bind

/-! ## Groups -/

mutual

/-- A group is drawn alike at both places. -/
theorem Group.mirrors_draw : (g : Group) → (p : Planner) → (graph : Option Item) →
    s.MirrorsInto (g.draw p graph)
  | ⟨elements⟩, p, graph => fun c c' hc => by
      unfold Group.draw
      exact (mirrors_drawFilters elements p graph hc).bind fun c₁ c₁' hc₁ =>
        (drawElements_mirrored elements p graph .start).mirrors_draw p graph c₁ c₁' hc₁

/-- The filters of a group are attached to corresponding cursors. -/
theorem mirrors_drawFilters : (elements : List Element) → (p : Planner) → (graph : Option Item) →
    {c c' : Cursor} → s.Feeds c c' →
      s.Mirrors s.Feeds (drawFilters p graph elements c) (drawFilters p graph elements c')
  | [], _, _, _, _, hc => mirrors_pure hc
  | e :: rest, p, graph, _, _, hc => by
      cases e with
      | filter e =>
          unfold drawFilters
          exact (Planner.mirrors_attachFilter (e.mirrors_drawNested p graph) hc).bind
            fun c₁ c₁' hc₁ => mirrors_drawFilters rest p graph hc₁
      | _ => exact mirrors_drawFilters rest p graph hc

/-- The elements of a group are gathered in segments, which are drawn alike. -/
theorem drawElements_mirrored : (elements : List Element) → (p : Planner) →
    (graph : Option Item) → {g : Segment} → g.Mirrored s →
      (drawElements p graph elements g).Mirrored s
  | [], _, _, _, hg => hg
  | e :: rest, p, graph, _, hg =>
      drawElements_mirrored rest p graph ((e.draw_mirrored p graph hg).scope _)

/-- A segment that is extended by an element is still drawn alike. -/
theorem Element.draw_mirrored : (e : Element) → (p : Planner) → (graph : Option Item) →
    {g : Segment} → g.Mirrored s → (e.draw p graph g).Mirrored s
  | .triple t, p, graph, g, hg => by
      unfold Element.draw
      split
      · exact hg.addOther (mirrors_ruleTriple p graph t)
      · exact hg.addTriple t
  | .path path, p, graph, _, hg => hg.addPath p graph path
  | .group g, p, graph, _, hg => hg.addOther (g.mirrors_draw p graph)
  | .union branches, p, graph, _, hg => by
      have hbranches := drawBranches_mirrored branches p graph
      exact hg.addOther (DrawInto.good_several hbranches (.attachSource _ Kind.noConfusion)
        (.operands .union Kind.noConfusion hbranches))
  | .optional g, p, graph, _, hg =>
      .close (.both .optional Kind.noConfusion (hg.mirrors_draw p graph) (g.mirrors_draw p graph))
  | .minus g, p, graph, _, hg =>
      .close (.both .minus Kind.noConfusion (hg.mirrors_draw p graph) (g.mirrors_draw p graph))
  | .bind e target, p, graph, g, hg => by
      refine .close fun c c' hc => ?_
      have hattach := MirrorsInto.attach (.bind target e) Kind.noConfusion
        (hg.mirrors_draw p graph) c c' hc
      dsimp only
      split
      · exact mirrors_throw
      · split
        · exact mirrors_throw
        · exact hattach
  | .graph name g, p, graph, _, hg =>
      hg.addOther (.after Planner.mirrorsSelf_require (g.mirrors_draw p (some name)))
  | .filter _, _, _, _, hg => hg
  | .subSelect q, p, graph, _, hg =>
      hg.addOther (.after q.mirrorsSelf_requireNestable (q.mirrors_draw p graph))
  | .service endpoint g silent, p, graph, _, hg =>
      hg.addOther (.after Planner.mirrorsSelf_require (.attachSource _ Kind.noConfusion))
  | .window w g, p, graph, _, hg =>
      hg.addOther (.after Planner.mirrorsSelf_require
        (.attach (.window w) Kind.noConfusion (g.mirrors_draw p graph)))
  | .atom a, p, graph, _, hg => by
      refine hg.addOther fun c c' hc => ?_
      split
      · exact mirrors_ruleAtom a c c' hc
      · exact mirrors_throw

/-- Every alternative is drawn alike. -/
theorem drawBranches_mirrored : (branches : List Group) → (p : Planner) →
    (graph : Option Item) → ∀ draw ∈ drawBranches p graph branches, s.MirrorsInto draw
  | [], _, _, _, h => absurd h List.not_mem_nil
  | g :: rest, p, graph, draw, h => by
      rcases List.mem_cons.1 h with rfl | h
      · exact g.mirrors_draw p graph
      · exact drawBranches_mirrored rest p graph draw h

/-- A query inside a pattern is drawn alike. -/
theorem Query.mirrors_draw : (q : Query) → (p : Planner) → (graph : Option Item) →
    s.MirrorsInto (q.drawSolutions p graph)
  | ⟨_, _, some g, ⟨_, having, _, _, _⟩⟩, p, graph =>
      Planner.mirrors_solutions (mirrors_drawNestedOf having p graph) (g.mirrors_draw p graph)
  | ⟨_, _, none, ⟨_, having, _, _, _⟩⟩, p, graph =>
      Planner.mirrors_solutions (mirrors_drawNestedOf having p graph)
        (.attachSource _ Kind.noConfusion)

/-- The plans for existence patterns do not depend on where their filter stands. -/
theorem Expression.mirrors_drawNested : (e : Expression) → (p : Planner) →
    (graph : Option Item) → ∀ x ∈ e.drawNested p graph, s.MirrorsSelf x
  | .existence _ g, p, graph, x, hx => List.mem_singleton.1 hx ▸ mirrorsSelf_nestedPlan _ _
  | .binary l _ r, p, graph, x, hx =>
      (List.mem_append.1 hx).elim (l.mirrors_drawNested p graph x) (r.mirrors_drawNested p graph x)
  | .unary _ e, p, graph, x, hx => e.mirrors_drawNested p graph x hx
  | .call _ args, p, graph, x, hx => by
      obtain ⟨draws, hdraws, hx⟩ := List.mem_flatten.1 hx
      exact mirrors_drawNestedOf args p graph draws hdraws x hx
  | .constant _, _, _, _, hx | .variable _, _, _, _, hx | .bound _, _, _, _, hx
  | .aggregate _, _, _, _, hx => absurd hx List.not_mem_nil

/-- The plans for conditions are the same wherever they are drawn. -/
theorem mirrors_drawNestedOf : (es : List Expression) → (p : Planner) → (graph : Option Item) →
    ∀ draws ∈ drawNestedOf p graph es, ∀ x ∈ draws, s.MirrorsSelf x
  | [], _, _, _, h => absurd h List.not_mem_nil
  | e :: rest, p, graph, draws, h => by
      rcases List.mem_cons.1 h with rfl | h
      · exact e.mirrors_drawNested p graph
      · exact mirrors_drawNestedOf rest p graph draws h

end

end QuadAlgebra
