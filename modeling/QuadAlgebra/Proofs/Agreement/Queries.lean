import QuadAlgebra.Proofs.Agreement.Plans
import QuadAlgebra.Proofs.Agreement.Threads
import QuadAlgebra.Proofs.Modifiers.Extraction
import QuadAlgebra.Proofs.Optimization.Disabled
import QuadAlgebra.Proofs.Optimization.Documents
import QuadAlgebra.Proofs.Semantics.Scans
import QuadAlgebra.Proofs.Variables.Documents

/-!
# Optimized queries agree with their originals

The rules move, merge and remove operators, and so they change in which order solutions come and
where they are counted. A query notices if it groups, aggregates or cuts off solutions, or makes new
blank nodes for each of them. If neither it nor any query in it does, its plan is woven
(`Query.ends_prepare_woven`), and then it has the same solutions, the same answer and the same
triples with and without the rules (`Query.compile_agrees`).

What is drawn is followed from cursor to cursor: a drawing that feeds an operand of a woven graph
leaves a woven graph in which nothing else is still to be connected (`FeedsWoven`).
-/

namespace QuadAlgebra

open QuadAlgebra.Graph (Gathers)

/-! ## Exhaustive queries -/

/-- The expressions that a form selects, unless it selects all variables. -/
def QueryForm.items? : QueryForm → Option (List SelectItem)
  | .select _ (.explicit items) => some items
  | _ => none

/-- Solutions are neither grouped nor aggregated nor cut off. -/
def Modifiers.isExhaustive (form : QueryForm) (m : Modifiers) : Bool :=
  m.groupBy.isEmpty && m.limit.isNone && m.offset.isNone &&
    !(Outputs.mk form.items? m.having m.orderBy).hasAggregate

mutual

/-- No query in the group groups, aggregates or cuts off solutions. -/
def Group.isExhaustive : Group → Bool
  | ⟨elements⟩ => elementsExhaustive elements

/-- All elements are exhaustive. -/
def elementsExhaustive : List Element → Bool
  | [] => true
  | e :: rest => e.isExhaustive && elementsExhaustive rest

/-- Nothing in an element cuts solutions off. -/
def Element.isExhaustive : Element → Bool
  | .group g | .optional g | .minus g | .graph _ g | .window _ g => g.isExhaustive
  | .union branches => groupsExhaustive branches
  | .filter e => e.isExhaustive
  | .subSelect q => q.isExhaustive
  | .triple _ | .path _ | .bind _ _ | .service _ _ _ | .atom _ => true

/-- All groups are exhaustive. -/
def groupsExhaustive : List Group → Bool
  | [] => true
  | g :: rest => g.isExhaustive && groupsExhaustive rest

/-- Neither the query nor any query in it groups, aggregates or cuts off solutions. -/
def Query.isExhaustive : Query → Bool
  | ⟨form, _, some g, ⟨groupBy, having, orderBy, limit, offset⟩⟩ =>
    Modifiers.isExhaustive form ⟨groupBy, having, orderBy, limit, offset⟩ &&
      expressionsExhaustive having && g.isExhaustive
  | ⟨form, _, none, ⟨groupBy, having, orderBy, limit, offset⟩⟩ =>
    Modifiers.isExhaustive form ⟨groupBy, having, orderBy, limit, offset⟩ &&
      expressionsExhaustive having

/-- No query in existence patterns of the expression groups, aggregates or cuts off solutions. -/
def Expression.isExhaustive : Expression → Bool
  | .existence _ g => g.isExhaustive
  | .binary l _ r => l.isExhaustive && r.isExhaustive
  | .unary _ e => e.isExhaustive
  | .call _ args => expressionsExhaustive args
  | .constant _ | .variable _ | .bound _ | .aggregate _ => true

/-- All expressions are exhaustive. -/
def expressionsExhaustive : List Expression → Bool
  | [] => true
  | e :: rest => e.isExhaustive && expressionsExhaustive rest

end

/-! ## Cursors -/

namespace Graph.Gathers

variable {base : Graph Plan} {d : Draft} {ids : List OperatorId} {c : Cursor} {op : Operator Plan}

/-- An operator is attached, which may be fed then. -/
theorem attach (h : base.Gathers d.graph ids) (hc : d.graph.Ready c) (hop : op.Links) :
    (c.attach op).Ends d fun c' d' => base.Gathers d'.graph ids ∧
      d'.graph.operator? c'.target = some op ∧ c'.operand = 0 := by
  have hkind := hop.kind
  simp only [List.mem_cons, List.not_mem_nil, or_false, not_or] at hkind
  unfold Cursor.attach
  refine (h.added hop.toWeavable (by simp [hkind])).bind fun id d₁ ⟨h₁, hid, hold⟩ => ?_
  refine (h₁.feed (hc.imp fun op' hop' => ⟨hold _ _ hop'.1, hop'.2⟩)).bind fun _ d₂ ⟨h₂, hops⟩ => ?_
  exact Edit.ends_pure.2 ⟨h₂, (hops id).trans hid, rfl⟩

end Graph.Gathers

/-- Whatever may be fed, the drawing feeds it and leaves nothing else to connect. -/
def FeedsWoven (draw : DrawInto) : Prop :=
  ∀ (d : Draft) (c : Cursor), d.graph.Woven → d.graph.Ready c →
    (draw c).Ends d fun _ d' => d.graph.Gathers d'.graph []

/-- The drawing passes a cursor on to something else that may be fed. -/
def PassesWoven (draw : Cursor → Draw Cursor) : Prop :=
  ∀ (d : Draft) (c : Cursor), d.graph.Woven → d.graph.Ready c →
    (draw c).Ends d fun c' d' => d.graph.Gathers d'.graph [] ∧ d'.graph.Ready c'

/-- What is ready to be fed stays so. -/
theorem Graph.Gathers.ready {g g' : Graph Plan} {ids : List OperatorId} {c : Cursor}
    (h : g.Gathers g' ids) (hc : g.Ready c) : g'.Ready c :=
  hc.imp fun op hop => ⟨h.kept _ op hop.1, hop.2⟩

namespace FeedsWoven

variable {draw first second : DrawInto} (op : Operator Plan)

/-- What has been drawn is connected. -/
theorem feed {draw : Draw OperatorId} (hdraw : DrawsLoose draw) :
    FeedsWoven (fun c => do c.feed (← draw)) := fun d _ hd hc =>
  (hdraw d hd).bind fun _ _ h₁ => (h₁.feed (h₁.ready hc)).mono fun _ _ h₂ => h₂.1

/-- A source may be attached to whatever is ready. -/
theorem attachSource (hop : op.isWeavable = true) (hkind : op.kind ∈ [.scan, .probe, .service]) :
    FeedsWoven fun c => c.attachSource op :=
  feed (drawsLoose_addSource (Operator.weavable_of hop) hkind)

theorem attachProbe (graph : Option Item) : FeedsWoven fun c => c.attachSource (.probe graph) :=
  attachSource _ rfl (by simp [Operator.kind])

/-- A drawing below a new operator. -/
theorem below {next : Cursor → Draw Unit} (hop : op.Links)
    (hnext : ∀ (d : Draft) (c : Cursor), d.graph.Woven → d.graph.operator? c.target = some op →
      c.operand = 0 → (next c).Ends d fun _ d' => d.graph.Gathers d'.graph []) :
    FeedsWoven (fun c => do next (← c.attach op)) := fun _ _ hd hc =>
  ((Gathers.refl hd).attach hc hop).bind fun c₁ d₁ ⟨h₁, hop₁, hzero⟩ =>
    (hnext d₁ c₁ h₁.woven hop₁ hzero).mono fun _ _ h₂ => h₁.trans h₂

/-- A drawing may go on below an operator that is attached. -/
theorem attach (hop : op.Links) (hdraw : FeedsWoven draw) :
    FeedsWoven (fun c => do draw (← c.attach op)) :=
  below op hop fun d c hd hop' hzero => hdraw d c hd (hop.ready hop' (.inr hzero))

/-- Something is done before a drawing that leaves the graph alone. -/
theorem after {α : Type} {check : Draw α}
    (hcheck : ∀ d, check.Ends d fun _ d' => d'.graph = d.graph) (hdraw : FeedsWoven draw) :
    FeedsWoven (fun c => do let _ ← check; draw c) := fun d c hd hc =>
  (hcheck d).bind fun _ d₁ hgraph => by
    rw [← hgraph] at hd hc ⊢
    exact hdraw d₁ c hd hc

/-- Two drawings that feed two operands of a new operator. -/
theorem both (hop : op.Links) (hspread : op.kind ∈ Graph.spread) (hfirst : FeedsWoven first)
    (hsecond : FeedsWoven second) : FeedsWoven (fun c => do
      let node ← c.attach op
      first node
      second (node.sibling 1)) := by
  refine below op hop fun d c hd hop' _ => ?_
  refine (hfirst d c hd (hop.ready hop' (.inl hspread))).bind fun _ d₁ h₁ => ?_
  refine (hsecond d₁ (c.sibling 1) h₁.woven ?_).mono fun _ _ h₂ => h₁.trans h₂
  exact hop.ready (c := c.sibling 1) (h₁.kept _ _ hop') (.inl hspread)

/-- Drawings that feed one operand each of a new operator. -/
theorem operands (hop : op.Links) (hspread : op.kind ∈ Graph.spread) {draws : List DrawInto}
    (hdraws : ∀ draw ∈ draws, FeedsWoven draw) : FeedsWoven (fun c => do
      let node ← c.attach op
      draws.zipIdx.forM fun (draw, operand) => draw (node.sibling operand)) := by
  refine below op hop fun d c hd hop' _ => ?_
  have hall : ∀ e ∈ draws.zipIdx, FeedsWoven e.1 := fun e he =>
    hdraws e.1 (List.fst_mem_of_mem_zipIdx he)
  generalize draws.zipIdx = parts at hall
  induction parts generalizing d with
  | nil => exact Edit.ends_pure.2 (.refl hd)
  | cons part rest ih =>
      rw [List.forM_eq_forM, List.forM_cons]
      obtain ⟨hpart, hrest⟩ := List.forall_mem_cons.1 hall
      refine (hpart d (c.sibling part.2) hd (hop.ready (c := c.sibling part.2) hop'
        (.inl hspread))).bind fun _ d₁ h₁ => ?_
      exact (ih d₁ h₁.woven (h₁.kept _ _ hop') hrest).mono fun _ _ h₂ => h₁.trans h₂

/-- A drawing below what a cursor is passed on to. -/
theorem passed {pass : Cursor → Draw Cursor} (hpass : PassesWoven pass) (hdraw : FeedsWoven draw) :
    FeedsWoven (fun c => do draw (← pass c)) := fun d c hd hc =>
  (hpass d c hd hc).bind fun c₁ d₁ ⟨h₁, hc₁⟩ =>
    (hdraw d₁ c₁ h₁.woven hc₁).mono fun _ _ h₂ => h₁.trans h₂

end FeedsWoven

namespace PassesWoven

/-- Drawings that pass cursors on, one after the other. -/
theorem foldlM {α : Type} {l : List α} {f : Cursor → α → Draw Cursor}
    (h : ∀ a ∈ l, PassesWoven fun c => f c a) : PassesWoven fun c => l.foldlM f c := by
  induction l with
  | nil => exact fun d c hd hc => Edit.ends_pure.2 ⟨.refl hd, hc⟩
  | cons a rest ih =>
      intro d c hd hc
      dsimp only
      rw [List.foldlM_cons]
      refine (h a List.mem_cons_self d c hd hc).bind fun c₁ d₁ ⟨h₁, hc₁⟩ => ?_
      exact (ih (fun b hb => h b (List.mem_cons_of_mem _ hb)) d₁ c₁ h₁.woven hc₁).mono
        fun _ _ ⟨h₂, hc₂⟩ => ⟨h₁.trans h₂, hc₂⟩

theorem attach {op : Operator Plan} (hop : op.Links) : PassesWoven fun c => c.attach op :=
  fun _ _ hd hc => ((Gathers.refl hd).attach hc hop).mono
    fun _ _ ⟨h, hop', hzero⟩ => ⟨h, hop.ready hop' (.inr hzero)⟩

/-- Operators may be attached one below the other. -/
theorem attachAll {ops : List (Operator Plan)} (hops : ∀ op ∈ ops, op.Links) :
    PassesWoven fun c => c.attachAll ops :=
  foldlM fun op hop => attach (hops op hop)

end PassesWoven

/-! ## Results -/

namespace Graph

variable {g g' : Graph Plan} {id : OperatorId} {form : ResultForm} {ids : List OperatorId}

/-- A woven graph with a single result. -/
structure ShowsOnly (g : Graph Plan) (id : OperatorId) (form : ResultForm) : Prop
    extends g.Woven where
  operator : g.operator? id = some (.result form)
  only : ∀ x op, g.operator? x = some op → op.kind = .result → x = id

/-- The empty graph is woven. -/
theorem woven_empty : (empty : Graph Plan).Woven where
  symmetric := symmetric_empty
  threads := ⟨fun _ _ _ _ hi => absurd hi (not_reads_empty _),
    fun _ _ hi => absurd hi (not_reads_empty _), fun _ _ _ hi => absurd hi (not_reads_empty _)⟩
  root := rfl
  unfed := not_reads_empty
  steadfast _ _ hop _ := (eq_root_of_empty hop).2 ▸ trivial
  limits _ hop := nomatch (eq_root_of_empty hop).2
  unread _ _ _ hi := absurd hi (not_reads_empty _)
  asked _ _ _ hi := absurd hi (not_reads_empty _)
  nested _ _ hop e he := by
    obtain ⟨-, rfl⟩ := eq_root_of_empty hop
    cases he

/-- Drawings add no results. -/
theorem ShowsOnly.gathers (h : g.ShowsOnly id form) (h' : g.Gathers g' ids) :
    g'.ShowsOnly id form where
  toWoven := h'.woven
  operator := h'.kept id _ h.operator
  only x op hop hkind := h.only x op (h'.results x op hop hkind) hkind

/-- A result that shows solutions is ready to be fed. -/
theorem ShowsOnly.ready {c : Cursor} (h : g.ShowsOnly c.target form) (hc : c.operand = 0) :
    g.Ready c := ⟨_, h.operator, by simp [Operator.kind], fun _ => hc⟩

/-- A plan is woven as soon as its variable sets have been computed. -/
theorem ShowsOnly.finished (h : g.ShowsOnly id form)
    (hfinish : updateVariables.runOn g = (.ok (), g')) : (⟨g'⟩ : Plan).Woven ∧
      ∀ x form', g'.operator? x = some (.result form') → form' = form := by
  have hsame := (updateVariables_eq_ok hfinish).2
  have hwoven : g'.Woven := h.toWoven.grown (fun _ _ => False)
    (hsame.symmetric h.symmetric) (fun x op hop => (hsame.operator? x).trans hop)
    (fun x op hop => .inl ((hsame.operator? x).symm.trans hop))
    (fun x i => by rw [Reads, Reads, hsame.succeeding, or_false]) fun _ _ hnew => hnew.elim
  have hop (x : OperatorId) : g'.operator? x = g.operator? x := hsame.operator? x
  refine ⟨.intro hwoven.toSpun ((hop id).trans h.operator)
    (fun x op hx => h.only x op ((hop x).symm.trans hx))
    (fun x op hx e he => (hwoven.nested x op hx e he).1)
    fun x op hx e he => (hwoven.nested x op hx e he).2, fun x form' hx => ?_⟩
  have hx := (hop x).symm.trans hx
  obtain rfl := h.only x _ hx rfl
  exact Operator.result.inj (Option.some.inj (hx.symm.trans h.operator))

end Graph

/-- A result is the first operator of a plan. -/
theorem Draw.ends_add_result {d : Draft} (hd : d.graph = .empty) (form : ResultForm) :
    (Draw.add (.result form)).Ends d fun id d' => d'.graph.ShowsOnly id form := by
  unfold Draw.add Draw.onGraph
  rw [Edit.ends_within, hd]
  refine (Graph.woven_empty.add (Operator.weavable_of rfl)).mono
    fun id g' ⟨hwoven, hfresh, hops, hreads⟩ => ⟨hwoven, (hops id).trans (if_pos rfl), ?_⟩
  intro x op hop hkind
  rw [hops] at hop
  split at hop
  · next hx => exact hx
  · obtain ⟨-, rfl⟩ := Graph.eq_root_of_empty hop
    cases hkind

/-! ## Nested plans and filters -/

/-- Wherever it is drawn, the plan is woven and selects solutions, and nothing else is drawn. -/
def DrawsWoven (draw : Draw Plan) : Prop := ∀ d : Draft, draw.Ends d fun plan d' =>
  d'.graph = d.graph ∧ plan.Woven ∧ plan.IsSelection

/-- A plan of its own is woven. -/
theorem drawsWoven_nestedPlan {vars : VarSet} {body : DrawInto} (hbody : FeedsWoven body) :
    DrawsWoven (nestedPlan vars body) := by
  intro d plan d' hrun
  have hdrawing : (do
      let result ← Draw.add (.result (.select vars.toList))
      body ⟨result, 0⟩ : Draw Unit).Ends d.cleared fun _ d' =>
        ∃ id, d'.graph.ShowsOnly id (.select vars.toList) :=
    (Draw.ends_add_result rfl _).bind fun id d₁ h₁ =>
      (hbody d₁ ⟨id, 0⟩ h₁.toWoven (h₁.ready rfl)).mono fun _ _ h₂ => ⟨id, h₁.gathers h₂⟩
  rw [nestedPlan_runOn] at hrun
  split at hrun
  · next inner hdrawn =>
    obtain ⟨hplan, rfl⟩ := Prod.mk.inj hrun
    obtain ⟨id, hshows⟩ := hdrawing () inner hdrawn
    cases hfinish : Graph.updateVariables.runOn inner.graph with
    | mk outcome G =>
        rw [hfinish] at hplan
        cases outcome with
        | error e => cases hplan
        | ok u =>
            obtain rfl := Except.ok.inj hplan
            obtain ⟨hwoven, hresults⟩ := hshows.finished hfinish
            exact ⟨rfl, hwoven, fun x form hx => ⟨_, hresults x form hx⟩⟩
  · cases hrun

/-- All plans for a condition are drawn woven. -/
def PlansWoven (nested : List (Draw Plan)) : Prop := ∀ draw ∈ nested, DrawsWoven draw

/-- The plans for conditions leave the graph alone. -/
theorem ends_mapM_plans {nested : List (Draw Plan)} (h : PlansWoven nested) (d : Draft) :
    (nested.mapM id).Ends d fun plans d' =>
      d'.graph = d.graph ∧ ∀ plan ∈ plans, plan.Woven ∧ plan.IsSelection := by
  induction nested generalizing d with
  | nil => exact Edit.ends_pure.2 ⟨rfl, fun _ h => absurd h List.not_mem_nil⟩
  | cons draw rest ih =>
      obtain ⟨hdraw, hrest⟩ := List.forall_mem_cons.1 h
      rw [List.mapM_cons]
      refine (hdraw d).bind fun plan d₁ ⟨hgraph₁, hplan⟩ => ?_
      refine (ih hrest d₁).bind fun plans d₂ ⟨hgraph₂, hplans⟩ => ?_
      exact Edit.ends_pure.2 ⟨hgraph₂.trans hgraph₁, List.forall_mem_cons.2 ⟨hplan, hplans⟩⟩

namespace Planner

variable {p : Planner}

/-- A filter is attached with its plans. -/
theorem passesWoven_attachFilter {e : Expression} {nested : List (Draw Plan)}
    (hnested : PlansWoven nested) : PassesWoven (p.attachFilter e nested) := by
  intro d c hd hc c' d' hrun
  obtain ⟨plans, d₁, hplans, hattach⟩ := attachFilter_eq_ok hrun
  obtain ⟨hgraph, hwoven⟩ := ends_mapM_plans hnested d plans d₁ hplans
  have hlinks : (filterOver e plans (some ⟨p.evaluator, d₁.nextSlot⟩)).Links :=
    Operator.links_filter fun entry hentry => by
      obtain ⟨place, hplace, rfl⟩ := List.mem_map.1 hentry
      exact hwoven place.1 (List.fst_mem_of_mem_zipIdx hplace)
  rw [← hgraph] at hd hc ⊢
  exact PassesWoven.attach hlinks { d₁ with nextSlot := d₁.nextSlot + 1 } c hd hc c' d' hattach

/-! ## Solutions of queries -/

/-- The layers of a query that cuts nothing off may be woven in. -/
theorem feedsWoven_solutions {form : QueryForm} {m : Modifiers} {nested : List (List (Draw Plan))}
    {pattern : DrawInto} (hm : m.isExhaustive form = true)
    (hnested : ∀ draws ∈ nested, PlansWoven draws)
    (hpattern : FeedsWoven pattern) : FeedsWoven (p.solutions form m nested pattern) := by
  obtain ⟨groupBy, having, orderBy, limit, offset⟩ := m
  simp only [Modifiers.isExhaustive, Bool.and_eq_true, Bool.not_eq_true', List.isEmpty_iff,
    Option.isNone_iff_eq_none] at hm
  obtain ⟨⟨⟨rfl, rfl⟩, rfl⟩, hnone⟩ := hm
  intro d c hd hc
  unfold solutions
  refine Edit.ends_bind.2 (Edit.ends_get.2 ?_)
  dsimp only
  split
  next o extraction hextract =>
  have hempty : extraction = ⟨[], d.nextVar⟩ := by
    refine (congrArg Prod.snd hextract).symm.trans (Eq.trans ?_
      (Outputs.run_extract_of_not_hasAggregate hnone _))
    cases form with
    | select duplicates selection => cases selection <;> rfl
    | _ => rfl
  subst hempty
  have hlift {α : Type} {outcome : Except Error α} (d : Draft) :
      (solutions.liftExcept outcome).Ends d fun _ d' => d' = d := fun a d' hrun =>
    (Prod.mk.inj (hrun : (outcome, d) = (.ok a, d'))).2.symm
  have hnil : ∀ op ∈ ([] : List (Operator Plan)), op.Links := fun _ h => absurd h List.not_mem_nil
  have hone {op : Operator Plan} (h : op.Links) : ∀ x ∈ [op], x.Links :=
    fun x hx => List.mem_singleton.1 hx ▸ h
  -- neither keys nor aggregates ask for groups
  refine Edit.ends_bind.2 (Edit.ends_set.2 (Edit.ends_bind.2 (Edit.ends_pure.2 ?_)))
  rw [if_neg (by simp)]
  refine (hlift _).bind fun computed d₁ hd₁ => (hlift _).bind fun keys d₂ hd₂ => ?_
  subst hd₁ hd₂
  refine FeedsWoven.passed (.attachAll ?_) (.passed (.foldlM fun e he => passesWoven_attachFilter
    (hnested e.2 (List.of_mem_zip he).2)) (.passed (.attachAll ?_) hpattern)) _ c hd hc
  · simp only [List.forall_mem_append]
    exact ⟨⟨⟨⟨⟨hnil, hnil⟩, forall_ite hnil (hone (Operator.links_of rfl))⟩,
      forall_option fun _ => Operator.links_of rfl⟩,
      forall_ite hnil (hone (Operator.links_of rfl))⟩,
      forall_bindOperators (fun _ _ => Operator.links_of rfl) _⟩
  · rw [if_neg (by simp)]
    exact forall_bindOperators (fun _ _ => Operator.links_of rfl) _

end Planner

/-! ## Segments -/

/-- All that a segment has gathered feeds woven graphs. -/
abbrev Segment.Weaves (s : Segment) : Prop := s.Each FeedsWoven

namespace Segment.Weaves

variable {s : Segment} {p : Planner}

/-- A triple that is stored. -/
theorem addTriple (h : s.Weaves) (hp : p.inRules = false) (graph : Option Item)
    (t : TriplePattern) :
    (if p.inRules then s.addOther (ruleTriple p graph t) else s.addTriple t).Weaves := by
  rw [if_neg (by simp [hp])]
  exact Segment.Each.addTriple h t

/-- A path is woven in as a pattern or as a path. -/
theorem addPath (h : s.Weaves) (hp : p.inRules = false) (graph : Option Item) (path : PathPattern) :
    (s.addPath p graph path).Weaves := by
  unfold Segment.addPath
  split
  · exact h.addTriple hp graph _
  · exact h.addOther (.feed (path.path.drawsLoose _ _))

/-- A segment is woven in with what it has gathered. -/
theorem feedsWoven (h : s.Weaves) (p : Planner) (graph : Option Item) :
    FeedsWoven (s.draw p graph) :=
  h.good_draw (.attachProbe graph)
    (fun _ => .attachSource _ rfl (by simp [Planner.scan, Operator.kind]))
    fun _ hdraws => .operands .join (Operator.links_of rfl) (by decide) hdraws

end Segment.Weaves

theorem Planner.require_keeps_graph {enabled : Bool} {feature : String} (d : Draft) :
    (Planner.require enabled feature).Ends d fun _ d' => d'.graph = d.graph :=
  Edit.ends_ite (fun _ => Edit.ends_pure.2 rfl) fun _ => Edit.ends_throw

theorem Query.requireNestable_keeps_graph (q : Query) (d : Draft) :
    q.requireNestable.Ends d fun _ d' => d'.graph = d.graph := by
  unfold Query.requireNestable
  dsimp only
  split
  · exact Edit.ends_ite (fun _ => Edit.ends_throw) fun _ => Edit.ends_pure.2 rfl
  · exact Edit.ends_bind.2 Edit.ends_throw

/-! ## Groups -/

mutual

/-- Groups feed woven graphs. -/
theorem Group.feedsWoven : (g : Group) → {p : Planner} → p.inRules = false → (graph : Option Item) →
    g.isExhaustive = true → FeedsWoven (g.draw p graph)
  | ⟨elements⟩, p, hp, graph, hg => by
      rw [Group.isExhaustive] at hg
      unfold Group.draw
      exact .passed (passesWoven_drawFilters elements hp graph hg)
        ((drawElements_weaves elements hp graph hg .start).feedsWoven p graph)

/-- The filters of a group are attached one below the other. -/
theorem passesWoven_drawFilters : (elements : List Element) → {p : Planner} → p.inRules = false →
    (graph : Option Item) → elementsExhaustive elements = true →
      PassesWoven (drawFilters p graph elements)
  | [], _, _, _, _ => fun d c hd hc => Edit.ends_pure.2 ⟨.refl hd, hc⟩
  | e :: rest, p, hp, graph, he => by
      rw [elementsExhaustive, Bool.and_eq_true] at he
      have hrest := passesWoven_drawFilters rest hp graph he.2
      cases e with
      | filter e =>
          intro d c hd hc
          unfold drawFilters
          refine (Planner.passesWoven_attachFilter (e.plansWoven hp graph he.1) d c hd hc).bind
            fun c₁ d₁ ⟨h₁, hc₁⟩ => ?_
          exact (hrest d₁ c₁ h₁.woven hc₁).mono fun _ _ ⟨h₂, hc₂⟩ => ⟨h₁.trans h₂, hc₂⟩
      | _ => exact hrest

/-- The elements of an exhaustive group are woven in. -/
theorem drawElements_weaves : (elements : List Element) → {p : Planner} → p.inRules = false →
    (graph : Option Item) → elementsExhaustive elements = true → {s : Segment} → s.Weaves →
      (drawElements p graph elements s).Weaves
  | [], _, _, _, _, _, hs => hs
  | e :: rest, _, hp, graph, he, _, hs => by
      rw [elementsExhaustive, Bool.and_eq_true] at he
      exact drawElements_weaves rest hp graph he.2 ((e.draw_weaves hp graph he.1 hs).scope _)

/-- An exhaustive element is woven in. -/
theorem Element.draw_weaves : (e : Element) → {p : Planner} → p.inRules = false →
    (graph : Option Item) → e.isExhaustive = true → {s : Segment} → s.Weaves →
      (e.draw p graph s).Weaves
  | .triple t, _, hp, graph, _, _, hs => hs.addTriple hp graph t
  | .path path, _, hp, graph, _, _, hs => hs.addPath hp graph path
  | .group g, _, hp, graph, he, _, hs => hs.addOther (g.feedsWoven hp graph he)
  | .union branches, _, hp, graph, he, _, hs => by
      have hbranches := drawBranches_feedWoven branches hp graph he
      exact hs.addOther (DrawInto.good_several hbranches (.attachProbe graph)
        (.operands .union (Operator.links_of rfl) (by decide) hbranches))
  | .optional g, p, hp, graph, he, _, hs =>
      .close (.both .optional (Operator.links_of rfl) (by decide) (hs.feedsWoven p graph)
        (g.feedsWoven hp graph he))
  | .minus g, p, hp, graph, he, _, hs =>
      .close (.both .minus (Operator.links_of rfl) (by decide) (hs.feedsWoven p graph)
        (g.feedsWoven hp graph he))
  | .bind e target, p, _, graph, _, _, hs => .close fun d c hd hc => by
      refine Edit.ends_ite (fun _ => Edit.ends_bind.2 Edit.ends_throw) fun _ =>
        Edit.ends_ite (fun _ => Edit.ends_bind.2 Edit.ends_throw) fun _ => ?_
      exact FeedsWoven.attach (.bind target e) (Operator.links_of rfl)
        (hs.feedsWoven p graph) d c hd hc
  | .graph name g, _, hp, _, he, _, hs =>
      hs.addOther (.after Planner.require_keeps_graph (g.feedsWoven hp (some name) he))
  | .filter _, _, _, _, _, _, hs => hs
  | .subSelect q, _, hp, graph, he, _, hs =>
      hs.addOther (.after q.requireNestable_keeps_graph (q.feedsWoven hp graph he))
  | .service endpoint g silent, _, _, _, _, _, hs =>
      hs.addOther (.after Planner.require_keeps_graph
        (.attachSource (.service endpoint g silent) rfl (by simp [Operator.kind])))
  | .window w g, _, hp, graph, he, _, hs =>
      hs.addOther (.after Planner.require_keeps_graph
        (.attach (.window w) (Operator.links_of rfl) (g.feedsWoven hp graph he)))
  | .atom a, _, hp, _, _, _, hs => by
      refine hs.addOther fun d c hd hc => ?_
      rw [if_neg (by simp [hp])]
      exact Edit.ends_throw

/-- Each branch of a union may be woven in. -/
theorem drawBranches_feedWoven : (branches : List Group) → {p : Planner} → p.inRules = false →
    (graph : Option Item) → groupsExhaustive branches = true →
      ∀ draw ∈ drawBranches p graph branches, FeedsWoven draw
  | [], _, _, _, _, _, h => absurd h List.not_mem_nil
  | g :: rest, _, hp, graph, hg, draw, h => by
      rw [groupsExhaustive, Bool.and_eq_true] at hg
      rcases List.mem_cons.1 h with rfl | h
      · exact g.feedsWoven hp graph hg.1
      · exact drawBranches_feedWoven rest hp graph hg.2 draw h

/-- The solutions of queries feed woven graphs. -/
theorem Query.feedsWoven : (q : Query) → {p : Planner} → p.inRules = false → (graph : Option Item) →
    q.isExhaustive = true → FeedsWoven (q.drawSolutions p graph)
  | ⟨_, _, some g, ⟨_, having, _, _, _⟩⟩, _, hp, graph, hq => by
      rw [Query.isExhaustive, Bool.and_eq_true, Bool.and_eq_true] at hq
      exact Planner.feedsWoven_solutions hq.1.1 (drawNestedOf_woven having hp graph hq.1.2)
        (g.feedsWoven hp graph hq.2)
  | ⟨_, _, none, ⟨_, having, _, _, _⟩⟩, _, hp, graph, hq => by
      rw [Query.isExhaustive, Bool.and_eq_true] at hq
      exact Planner.feedsWoven_solutions hq.1 (drawNestedOf_woven having hp graph hq.2)
        (.attachProbe graph)

/-- The plans for existence patterns are woven. -/
theorem Expression.plansWoven : (e : Expression) → {p : Planner} → p.inRules = false →
    (graph : Option Item) → e.isExhaustive = true → PlansWoven (e.drawNested p graph)
  | .existence _ g, _, _, graph, he => fun draw hdraw =>
      List.mem_singleton.1 hdraw ▸ drawsWoven_nestedPlan (g.feedsWoven rfl graph he)
  | .binary l _ r, _, hp, graph, he => fun draw hdraw => by
      rw [Expression.isExhaustive, Bool.and_eq_true] at he
      rcases List.mem_append.1 hdraw with hdraw | hdraw
      · exact l.plansWoven hp graph he.1 draw hdraw
      · exact r.plansWoven hp graph he.2 draw hdraw
  | .unary _ e, _, hp, graph, he => e.plansWoven hp graph he
  | .call _ args, _, hp, graph, he => fun draw hdraw => by
      obtain ⟨draws, hdraws, hdraw⟩ := List.mem_flatten.1 hdraw
      exact drawNestedOf_woven args hp graph he draws hdraws draw hdraw
  | .constant _, _, _, _, _ | .variable _, _, _, _, _ | .bound _, _, _, _, _
  | .aggregate _, _, _, _, _ => fun _ h => absurd h List.not_mem_nil

/-- The plans for exhaustive conditions are woven. -/
theorem drawNestedOf_woven : (es : List Expression) → {p : Planner} → p.inRules = false →
    (graph : Option Item) → expressionsExhaustive es = true →
      ∀ draws ∈ drawNestedOf p graph es, PlansWoven draws
  | [], _, _, _, _, _, h => absurd h List.not_mem_nil
  | e :: rest, _, hp, graph, he, draws, h => by
      rw [expressionsExhaustive, Bool.and_eq_true] at he
      rcases List.mem_cons.1 h with rfl | h
      · exact e.plansWoven hp graph he.1
      · exact drawNestedOf_woven rest hp graph he.2 draws h

end

/-! ## Queries -/

/-- The form has no template with blank nodes, of which new ones would be made. -/
def QueryForm.isBlankless : QueryForm → Bool
  | .construct template => !template.any TriplePattern.hasBlanks
  | _ => true

namespace Query

variable {q : Query} {p : Planner} {d d' : Draft} {prepared : Prepared}

/-- A pattern may be woven in, or a probe if there is none. -/
theorem feedsWoven_drawPattern (hp : p.inRules = false) {pattern : Option Group}
    (hpattern : ∀ g ∈ pattern, g.isExhaustive = true) :
    FeedsWoven (QuadAlgebra.drawPattern p none pattern) := by
  cases pattern with
  | some g => exact g.feedsWoven hp none (hpattern g rfl)
  | none => exact .attachProbe none

/-- The pattern of an exhaustive query is exhaustive. -/
theorem isExhaustive_pattern (hq : q.isExhaustive = true) :
    ∀ g ∈ q.pattern, g.isExhaustive = true := by
  obtain ⟨form, dataset, pattern, ⟨groupBy, having, orderBy, limit, offset⟩⟩ := q
  rintro g hg
  obtain rfl : pattern = some g := hg
  rw [isExhaustive, Bool.and_eq_true] at hq
  exact hq.2

/-- The answer to a question is found with the first solution. -/
theorem ends_attach_limit {c : Cursor} (h : d.graph.ShowsOnly c.target .ask) (hc : c.operand = 0) :
    (c.attach (.limit 1)).Ends d fun c' d' => d'.graph.ShowsOnly c.target .ask ∧
      d'.graph.Ready c' := by
  unfold Cursor.attach Draw.add Draw.connect Draw.onGraph
  have hlimit : (.limit 1 : Operator Plan).Weavable :=
    ⟨fun hne => absurd rfl hne, by simp, fun e he => absurd he List.not_mem_nil⟩
  refine Edit.ends_bind.2 (Edit.ends_within.2 ((h.toWoven.add hlimit).mono
    fun id g₁ ⟨hwoven₁, hfresh, hops₁, hreads₁⟩ => ?_))
  have hid : g₁.operator? id = some (.limit 1) := (hops₁ id).trans (if_pos rfl)
  have htarget : g₁.operator? c.target = some (.result .ask) := by
    rw [hops₁, if_neg, h.operator]
    intro he
    cases hfresh.symm.trans (he ▸ h.operator)
  refine Edit.ends_bind.2 (Edit.ends_within.2 ((hwoven₁.connect fun g' hops hreads => ?_).mono
    fun _ g₂ ⟨hwoven₂, hops₂, _⟩ => Edit.ends_pure.2 ⟨⟨hwoven₂, (hops₂ _).trans htarget, ?_⟩, ?_⟩))
  · have hsource {op : Operator Plan} (hop : g'.operator? id = some op) : op = .limit 1 :=
      Option.some.inj (hop.symm.trans ((hops id).trans hid))
    refine ⟨?_, fun _ _ y j hj hsource _ => ?_, fun he => ?_, fun _ _ _ => hc, fun op hop => ?_,
      fun _ _ _ => (hops _).trans htarget⟩
    · intro he
      cases (he ▸ hwoven₁.root).symm.trans htarget
    · rcases (hreads y j).1 hj with hj | ⟨rfl, rfl⟩
      · obtain ⟨op, hop⟩ := Graph.exists_operator?_source h.symmetric.linked ((hreads₁ y j).1 hj)
        cases hfresh.symm.trans (hsource ▸ hop)
      · exact ⟨rfl, rfl⟩
    · obtain rfl : id = Graph.root := he
      cases hfresh.symm.trans h.root
    · rw [hsource hop]
      exact Kind.noConfusion
  · intro x op hop hkind
    rw [hops₂, hops₁] at hop
    split at hop
    · obtain rfl := Option.some.inj hop
      cases hkind
    · exact h.only x op hop hkind
  · exact ⟨.limit 1, (hops₂ id).trans hid, by simp [Operator.kind], fun _ => rfl⟩

/-- What is drawn for a query is woven, with a single result. -/
theorem ends_draw_woven (hp : p.inRules = false) (hq : q.isExhaustive = true)
    (hform : q.form.isBlankless = true) (hd : d.graph = .empty) : (q.draw p).Ends d fun _ d' =>
      ∃ id form, d'.graph.ShowsOnly id form ∧ (form = .ask → q.form = .ask) := by
  have hsolutions := q.feedsWoven hp none hq
  have hresult {form : ResultForm} {draw : Cursor → Draw Unit} {post : Unit → Draft → Prop}
      (hdraw : ∀ d c, d.graph.ShowsOnly c.target form → c.operand = 0 → (draw c).Ends d post) :
      (do draw (← Draw.addResult form) : Draw Unit).Ends d post := by
    unfold Draw.addResult
    rw [bind_assoc]
    exact (Draw.ends_add_result hd form).bind fun id d₁ h₁ => hdraw d₁ ⟨id, 0⟩ h₁ rfl
  have hover {form : ResultForm} {op : Operator Plan} (hop : op.Links) (hform : form ≠ .ask) :
      (do
        let result ← Draw.addResult form
        q.drawSolutions p none (← result.attach op) : Draw Unit).Ends d fun _ d' =>
          ∃ id form, d'.graph.ShowsOnly id form ∧ (form = .ask → q.form = .ask) := by
    refine hresult fun d₁ c h₁ hc => ?_
    exact (FeedsWoven.attach op hop hsolutions d₁ c h₁.toWoven (h₁.ready hc)).mono
      fun _ _ h₂ => ⟨c.target, form, h₁.gathers h₂, fun he => absurd he hform⟩
  unfold draw
  split
  · refine hresult fun d₁ c h₁ hc => ?_
    exact (hsolutions d₁ c h₁.toWoven (h₁.ready hc)).mono
      fun _ _ h₂ => ⟨c.target, _, h₁.gathers h₂, fun he => by cases he⟩
  · next template htemplate =>
    refine hover ⟨⟨fun _ t ht => ?_, by simp, fun e he => absurd he List.not_mem_nil⟩,
      by simp [Operator.kind]⟩ (by simp)
    obtain ⟨t, hmem, rfl⟩ := List.mem_map.1 ht
    rw [htemplate, QueryForm.isBlankless, Bool.not_eq_true', List.any_eq_false] at hform
    simpa [QuadPattern.hasBlanks] using hform t hmem
  · next hask =>
    refine hresult fun d₁ c h₁ hc => ?_
    refine (ends_attach_limit h₁ hc).bind fun c' d₂ hlimit => ?_
    obtain ⟨h₂, hc'⟩ := hlimit
    exact (feedsWoven_drawPattern hp (isExhaustive_pattern hq) d₂ c' h₂.toWoven hc').mono
      fun _ _ h₃ => ⟨c.target, _, h₂.gathers h₃, fun _ => hask⟩
  · exact hover (Operator.links_of rfl) (by simp)

/-- The plan of a query is woven. -/
theorem ends_prepare_woven (hp : p.inRules = false) (hq : q.isExhaustive = true)
    (hform : q.form.isBlankless = true) : (q.prepare p).Ends d fun prepared _ =>
      prepared.plan.Woven ∧ ∀ x form, prepared.plan.graph.operator? x = some (.result form) →
        form = .ask → q.form = .ask := by
  unfold prepare
  refine (Planner.ends_within q.dataset).bind fun p' d₁ hp' prepared d₂ hprepared => ?_
  obtain ⟨d₃, G, hbuilt, hfinish, rfl⟩ := prepared_eq_ok hprepared
  have hrules : p'.inRules = false := by
    rw [hp']
    exact hp
  obtain ⟨id, form, hshows, hask⟩ := ends_draw_woven hrules hq hform rfl () d₃ hbuilt
  obtain ⟨hwoven, hresults⟩ := hshows.finished hfinish
  exact ⟨hwoven, fun x form' hx he => hask ((hresults x form' hx).symm.trans he)⟩

end Query

/-! ## Compiled queries -/

namespace Query

variable {q : Query} {p : Planner} {d d' : Draft} {prepared : Prepared}

/-- A query is planned, and then its plan is optimized. -/
theorem compile_eq_ok (h : (q.compile p).runOn d = (.ok prepared, d')) : ∃ planned,
    (q.prepare p).runOn d = (.ok planned, d') ∧ p.optimizePrepared planned = .ok prepared := by
  obtain ⟨planned, d₁, hplanned, hrun⟩ := Edit.runOn_bind_eq_ok.1 h
  obtain rfl : d₁ = d' := congrArg Prod.snd hrun
  exact ⟨planned, hplanned, congrArg Prod.fst hrun⟩

/-- The plan of an exhaustive query over a store is graded, and it fits together. -/
theorem graded_prepare {name : String} {store : Store} (hscans : p.scans = .ofStore name store)
    (hp : p.inRules = false) (hq : q.isExhaustive = true) (hform : q.form.isBlankless = true)
    (h : (q.prepare p).runOn d = (.ok prepared, d')) :
    prepared.plan.Graded ∧ prepared.plan.Fit false ∧ ∀ x form,
      prepared.plan.graph.operator? x = some (.result form) → form = .ask → q.form = .ask := by
  obtain ⟨hwoven, hresult⟩ := ends_prepare_woven hp hq hform prepared d' h
  have hfinished : prepared.plan.Finished false := ends_prepare_within
    (fun hrules => absurd hrules (by simp [hp])) (Planner.scansPatterns_ofStore hscans)
    (fun _ => q.buildsSketch) prepared d' h
  exact ⟨hwoven.graded hfinished.1, hfinished.1, hresult⟩

/-- Optimizing an exhaustive query changes nothing but the order of its solutions, whatever rules
are allowed and over whatever graphs of the store: if it can be compiled and evaluated with and
without rules, there are the same solutions, equally often, the same answer to a question, and the
same triples. -/
theorem compile_agrees {name : String} {store : Store} {limit : Nat} {d₁ d₂ : Draft}
    {optimized plain : Prepared} {e e' : Evaluation} (hscans : p.scans = .ofStore name store)
    (hp : p.inRules = false) (hq : q.isExhaustive = true) (hform : q.form.isBlankless = true)
    (hoptimized : (q.compile p).runOn d = (.ok optimized, d₁))
    (hplain : (q.compile p.unoptimized).runOn d = (.ok plain, d₂))
    (he : optimized.plan.evaluate ⟨store, optimized.dataset⟩ limit = .ok e)
    (he' : plain.plan.evaluate ⟨store, plain.dataset⟩ limit = .ok e') :
    (q.form ≠ .ask → e.solutions.Perm e'.solutions) ∧ e.ask = e'.ask ∧ e.triples = e'.triples := by
  obtain ⟨planned, hplanned, hoptimized⟩ := compile_eq_ok hoptimized
  obtain ⟨planned', hplanned', hplain⟩ := compile_eq_ok hplain
  -- both compilations start from the same plan
  rw [prepare_unoptimized, hplanned] at hplanned'
  obtain rfl : planned = planned' := Except.ok.inj (congrArg Prod.fst hplanned')
  obtain ⟨hdataset, hsame⟩ :=
    Planner.evaluate_unoptimized (q.ends_prepare planned d₁ hplanned) hplain
  rw [hdataset, hsame] at he'
  obtain ⟨o, ho, rfl⟩ := Planner.optimizePrepared_eq_ok hoptimized
  obtain ⟨hgraded, hfit, hresult⟩ := graded_prepare hscans hp hq hform hplanned
  obtain ⟨result, form, hop, hmatches⟩ := hgraded.evaluate_optimize hfit
    (fun s hs => by
      rw [hscans] at hs
      exact ScanFactory.provesEmpty_ofStore hs)
    (fun rule => OptimizerConfig.mem_catalogue) ho he' he
  exact ⟨fun hask => (hmatches.solutions fun h => hask (hresult result form hop h)).symm,
    hmatches.ask.symm, hmatches.triples.symm⟩

end Query

/-- All that has a name or a nickname and is not known to be listed. -/
def namedUnlisted : Query :=
  .selectAll ⟨[
    .union [⟨[.triple ⟨.var ⟨"x"⟩, .term (.iri "name"), .var ⟨"n"⟩⟩]⟩,
      ⟨[.triple ⟨.var ⟨"x"⟩, .term (.iri "nick"), .var ⟨"n"⟩⟩]⟩],
    .filter (.existence false ⟨[.triple ⟨.var ⟨"list"⟩, .term (.iri "lists"), .var ⟨"x"⟩⟩]⟩)]⟩

/-- Two names without nicknames, the second one listed. -/
def twoNames : Store := .ofList [⟨none, ⟨.iri "a", .iri "name", .iri "b"⟩⟩,
  ⟨none, ⟨.iri "c", .iri "name", .iri "b"⟩⟩, ⟨none, ⟨.iri "d", .iri "lists", .iri "c"⟩⟩]

/-- Without nicknames there is no union left. -/
theorem compile_agrees_namedUnlisted : ∃ optimized d₁ plain d₂ e e',
    (namedUnlisted.compile (.ofStore twoNames)).runOn .empty = (.ok optimized, d₁) ∧
    (namedUnlisted.compile (Planner.ofStore twoNames).unoptimized).runOn .empty = (.ok plain, d₂) ∧
    optimized.plan.graph.ids.length = 4 ∧ plain.plan.graph.ids.length = 6 ∧
    optimized.plan.evaluate ⟨twoNames, optimized.dataset⟩ 2 = .ok e ∧
    plain.plan.evaluate ⟨twoNames, plain.dataset⟩ 2 = .ok e' ∧ e.solutions.length = 1 ∧
    (namedUnlisted.form ≠ .ask → e.solutions.Perm e'.solutions) ∧ e.ask = e'.ask ∧
      e.triples = e'.triples := by
  have hevaluated (p : Planner) (size : Nat)
      (h : (((namedUnlisted.compile p).runOn .empty).1.bind fun prepared =>
        (prepared.plan.evaluate ⟨twoNames, prepared.dataset⟩ 2).map fun e =>
          (prepared.plan.graph.ids.length, e.solutions.length)) = .ok (size, 1)) :
      ∃ prepared d' e, (namedUnlisted.compile p).runOn .empty = (.ok prepared, d') ∧
        prepared.plan.graph.ids.length = size ∧
        prepared.plan.evaluate ⟨twoNames, prepared.dataset⟩ 2 = .ok e ∧
        e.solutions.length = 1 := by
    rcases hrun : (namedUnlisted.compile p).runOn .empty with ⟨error | prepared, d'⟩
    · rw [hrun] at h
      cases h
    · rw [hrun] at h
      cases he : prepared.plan.evaluate ⟨twoNames, prepared.dataset⟩ 2 with
      | error error => simp [Except.bind, he, Except.map] at h
      | ok e =>
          simp only [Except.bind, he, Except.map, Except.ok.injEq, Prod.mk.injEq] at h
          exact ⟨prepared, d', e, rfl, h.1, he, h.2⟩
  obtain ⟨optimized, d₁, e, hoptimized, hsize, he, hone⟩ :=
    hevaluated (.ofStore twoNames) 4 (by decide +kernel)
  obtain ⟨plain, d₂, e', hplain, hsize', he', -⟩ :=
    hevaluated (Planner.ofStore twoNames).unoptimized 6 (by decide +kernel)
  exact ⟨optimized, d₁, plain, d₂, e, e', hoptimized, hplain, hsize, hsize', he, he', hone,
    Query.compile_agrees rfl rfl (by decide +kernel) rfl hoptimized hplain he he'⟩

end QuadAlgebra
