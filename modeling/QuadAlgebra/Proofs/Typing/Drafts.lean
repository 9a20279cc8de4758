import QuadAlgebra.Proofs.Planning.Groups
import QuadAlgebra.Proofs.Typing.Plans

/-!
# Typed drafts

The steps of a drawing keep a draft typed: a cursor is fed from operators that emit what its
target accepts. Drawings that feed solutions (`DrawsSolutions`), and drawings of operators that emit
solutions (`AddsProducer`), are put together from such steps.
-/

namespace QuadAlgebra

/-! ## Drafts -/

/-- The operators that are wired in the end produce and match what they are remembered for. -/
structure Wiring.Typed (w : Wiring) (g : Graph Plan) : Prop where
  generators : ∀ id ∈ w.generators, g.Emits id .quad
  tripleMatchers : ∀ id ∈ w.tripleMatchers, g.Takes id .quad
  atomHeads : ∀ id ∈ w.atomHeads, g.Emits id .fact
  atomMatchers : ∀ id ∈ w.atomMatchers, g.Takes id .fact

/-- Wiring stays typed as long as the kinds of the graph are kept. -/
theorem Wiring.Typed.keeps {w : Wiring} {g g' : Graph Plan} {good : Plan → Prop} (h : w.Typed g)
    (hkeeps : g.KeepsKinds good g') : w.Typed g' :=
  ⟨fun id hid => hkeeps.emits (h.generators id hid), fun id hid =>
    hkeeps.takes (h.tripleMatchers id hid), fun id hid => hkeeps.emits (h.atomHeads id hid),
    fun id hid => hkeeps.takes (h.atomMatchers id hid)⟩

/-- A change of a draft that keeps the types of its operators. -/
structure Draft.KeepsKinds (d d' : Draft) : Prop where
  graph : d.graph.KeepsKinds Plan.Typed d'.graph
  wiring : d.wiring.Typed d.graph → d'.wiring.Typed d'.graph

namespace Draft.KeepsKinds

variable {d d' d'' : Draft}

/-- A draft keeps its own kinds. -/
theorem refl : d.KeepsKinds d := ⟨.refl, id⟩

/-- Keeping the kinds twice is keeping them. -/
theorem trans (h : d.KeepsKinds d') (h' : d'.KeepsKinds d'') : d.KeepsKinds d'' :=
  ⟨h.graph.trans h'.graph, fun hw => h'.wiring (h.wiring hw)⟩

/-- Drafts are preordered by the kinds they keep. -/
instance : IsPreorder Draft Draft.KeepsKinds where
  refl _ := refl
  trans _ _ _ h h' := h.trans h'

/-- Only the graph of a draft decides which kinds it keeps. -/
theorem of_graph {g : Graph Plan} (h : d.graph.KeepsKinds Plan.Typed g) :
    d.KeepsKinds { d with graph := g } :=
  ⟨h, fun hw => hw.keeps h⟩

/-- Numbers may be handed out. -/
theorem of_eq (hgraph : d'.graph = d.graph) (hwiring : d'.wiring = d.wiring) : d.KeepsKinds d' :=
  ⟨hgraph ▸ .refl, fun hw => hwiring ▸ hgraph ▸ hw⟩

end Draft.KeepsKinds

/-! ## Single steps -/

namespace Draw

variable {d : Draft} {op : Operator Plan} {id s t : OperatorId} {k : RowKind}

/-- An edit that keeps the kinds of the graph keeps those of the draft. -/
theorem ends_onGraph {α : Type} {edit : Edit (Graph Plan) α}
    (h : edit.Ends d.graph fun _ g => d.graph.KeepsKinds Plan.Typed g) :
    (onGraph edit).Ends d fun _ d' => d.KeepsKinds d' :=
  Edit.ends_within.2 (h.mono fun _ _ h => .of_graph h)

/-- A new operator has its own kind and changes that of no other. -/
theorem ends_add (op : Operator Plan) (hcovered : op.Covered Plan.Typed) :
    (add op).Ends d fun id d' => d.KeepsKinds d' ∧ d'.graph.OfType id op := by
  intro id d' hrun
  rw [add_runOn] at hrun
  obtain ⟨hid, rfl⟩ := Prod.mk.inj hrun
  obtain rfl := Except.ok.inj hid
  refine ⟨.of_graph (.withOperator hcovered), .of_operator? ?_⟩
  rw [Draft.operator?_withOperator, if_pos rfl]

/-- An edge between operands of one kind keeps the kinds. -/
theorem ends_connect {operand : Nat} (hs : d.graph.Emits s k) (ht : d.graph.Takes t k) :
    (connect s t operand).Ends d fun _ d' => d.KeepsKinds d' :=
  ends_onGraph (Graph.ends_connect hs ht)

/-- A fresh variable keeps the kinds. -/
theorem ends_freshVar : freshVar.Ends d fun _ d' => d.KeepsKinds d' := by
  unfold freshVar
  refine Edit.ends_bind.2 (Edit.ends_get.2 (Edit.ends_bind.2 (Edit.ends_set.2 ?_)))
  exact Edit.ends_pure.2 (.of_eq rfl rfl)

/-- A malformed document leaves no draft to say anything about. -/
theorem ends_malformed {α : Type} {cause : Malformed} {post : α → Draft → Prop} :
    (malformed cause : Draw α).Ends d post := Edit.ends_throw

/-- An unsupported document leaves no draft to say anything about. -/
theorem ends_unsupported {α : Type} {cause : Unsupported} {post : α → Draft → Prop} :
    (unsupported cause : Draw α).Ends d post := Edit.ends_throw

/-- A source fed by the root or by the wired operator has its own kind. -/
theorem ends_addSource (htyped : d.graph.Typed Plan.Typed) (hcovered : op.Covered Plan.Typed)
    (haccepts : op.accepts .solution = true) :
    (addSource op).Ends d fun id d' => d.KeepsKinds d' ∧ d'.graph.OfType id op := by
  unfold addSource
  refine (ends_add op hcovered).bind fun id d₁ ⟨h₁, hid⟩ => ?_
  refine (ends_connect (h₁.graph.emits htyped.emits_root) (hid.takes haccepts)).bind
    fun _ d₂ h₂ => ?_
  exact Edit.ends_pure.2 ⟨h₁.trans h₂, hid.keeps h₂.graph⟩

end Draw

/-! ## Cursors -/

namespace Cursor

variable {d : Draft} {op : Operator Plan} {c : Cursor} {k : RowKind}

/-- Attaching an operator moves the cursor to an operand of that operator. -/
theorem ends_attach (op : Operator Plan) (hcovered : op.Covered Plan.Typed)
    (hk : op.emits? = some k)
    (hc : d.graph.Takes c.target k) :
    (c.attach op).Ends d fun c' d' => d.KeepsKinds d' ∧ d'.graph.OfType c'.target op := by
  unfold attach
  refine (Draw.ends_add op hcovered).bind fun id d₁ ⟨h₁, hid⟩ => ?_
  refine (Draw.ends_connect (hid.emits hk) (h₁.graph.takes hc)).bind fun _ d₂ h₂ => ?_
  exact Edit.ends_pure.2 ⟨h₁.trans h₂, hid.keeps h₂.graph⟩

/-- Attaching an operator on solutions keeps the cursor on solutions. -/
theorem ends_attach_onSolutions (hcovered : op.Covered Plan.Typed) (hon : op.OnSolutions)
    (hc : d.graph.Takes c.target .solution) :
    (c.attach op).Ends d fun c' d' => d.KeepsKinds d' ∧ d'.graph.Takes c'.target .solution :=
  (ends_attach op hcovered hon.2 hc).mono fun _ _ ⟨h, hop⟩ => ⟨h, hop.takes (by rw [hon.1]; rfl)⟩

/-- Attaching several operators on solutions keeps the cursor on solutions. -/
theorem ends_attachAll {ops : List (Operator Plan)}
    (hops : ∀ op ∈ ops, op.OnSolutions ∧ op.Covered Plan.Typed)
    (hc : d.graph.Takes c.target .solution) :
    (c.attachAll ops).Ends d fun c' d' => d.KeepsKinds d' ∧ d'.graph.Takes c'.target .solution :=
  Edit.ends_foldlM Draft.KeepsKinds (fun (c : Cursor) d => d.graph.Takes c.target .solution) hc
    fun _ op hop _ _ hc => ends_attach_onSolutions (hops op hop).2 (hops op hop).1 hc

/-- A source attached to a cursor that takes its rows keeps the kinds. -/
theorem ends_attachSource (htyped : d.graph.Typed Plan.Typed) (hcovered : op.Covered Plan.Typed)
    (haccepts : op.accepts .solution = true) (hk : op.emits? = some k)
    (hc : d.graph.Takes c.target k) : (c.attachSource op).Ends d fun _ d' => d.KeepsKinds d' := by
  unfold attachSource
  refine (Draw.ends_addSource htyped hcovered haccepts).bind fun id d₁ ⟨h₁, hid⟩ => ?_
  exact (Draw.ends_connect (hid.emits hk) (h₁.graph.takes hc)).mono fun _ _ h₂ => h₁.trans h₂

/-- A producer of the kind the cursor takes may feed it. -/
theorem ends_feed {producer : OperatorId} (hs : d.graph.Emits producer k)
    (hc : d.graph.Takes c.target k) : (c.feed producer).Ends d fun _ d' => d.KeepsKinds d' :=
  Draw.ends_connect hs hc

end Cursor

/-! ## Drawings -/

/-- The drawing feeds a cursor to solutions with solutions. -/
def DrawsSolutions (draw : DrawInto) : Prop :=
  ∀ (d : Draft) (c : Cursor), d.graph.Typed Plan.Typed → d.graph.Takes c.target .solution →
    (draw c).Ends d fun _ d' => d.KeepsKinds d'

/-- The drawing returns an operator that emits solutions. -/
def AddsProducer (draw : Draw OperatorId) : Prop :=
  ∀ d : Draft, d.graph.Typed Plan.Typed →
    draw.Ends d fun id d' => d.KeepsKinds d' ∧ d'.graph.Emits id .solution

/-- The drawing returns a typed plan. -/
def DrawsPlan (draw : Draw Plan) : Prop :=
  ∀ d : Draft, draw.Ends d fun p d' => d.KeepsKinds d' ∧ p.Typed

/-- A source of solutions draws solutions. -/
theorem DrawsSolutions.attachSource (op : Operator Plan) (hon : op.OnSolutions)
    (hcovered : op.Covered Plan.Typed) : DrawsSolutions fun c => c.attachSource op :=
  fun _ _ htyped hc => Cursor.ends_attachSource htyped hcovered (by rw [hon.1]; rfl) hon.2 hc

/-- An operator on solutions drawn over solutions draws solutions. -/
theorem DrawsSolutions.attach (op : Operator Plan) {draw : DrawInto} (hon : op.OnSolutions)
    (hcovered : op.Covered Plan.Typed) (hdraw : DrawsSolutions draw) :
    DrawsSolutions (fun c => do draw (← c.attach op)) := by
  intro d c htyped hc
  refine (Cursor.ends_attach_onSolutions hcovered hon hc).bind fun c' d₁ ⟨h₁, hc'⟩ => ?_
  exact (hdraw d₁ c' (h₁.graph.typed htyped) hc').mono fun _ _ h₂ => h₁.trans h₂

/-- Feeding the cursor by a drawn producer draws solutions. -/
theorem DrawsSolutions.feed {draw : Draw OperatorId} (hdraw : AddsProducer draw) :
    DrawsSolutions (fun c => do c.feed (← draw)) := by
  intro d c htyped hc
  refine (hdraw d htyped).bind fun id d₁ ⟨h₁, hid⟩ => ?_
  exact (Cursor.ends_feed hid (h₁.graph.takes hc)).mono fun _ _ h₂ => h₁.trans h₂

/-- Several drawings feed the operands of one operator. -/
theorem ends_drawOperands {draws : List DrawInto} (hdraws : ∀ draw ∈ draws, DrawsSolutions draw)
    {d : Draft} {c : Cursor} (htyped : d.graph.Typed Plan.Typed)
    (hc : d.graph.Takes c.target .solution) :
    (draws.zipIdx.forM fun (draw, operand) => draw (c.sibling operand)).Ends d
      fun _ d' => d.KeepsKinds d' := by
  refine Edit.ends_forM Draft.KeepsKinds fun e he d' h => ?_
  exact hdraws e.1 (List.fst_mem_of_mem_zipIdx he) d' (c.sibling e.2) (h.graph.typed htyped)
    (h.graph.takes hc)

/-- An operator on solutions over several drawings of solutions draws solutions. -/
theorem DrawsSolutions.operands (op : Operator Plan) (hon : op.OnSolutions)
    (hcovered : op.Covered Plan.Typed) {draws : List DrawInto}
    (hdraws : ∀ draw ∈ draws, DrawsSolutions draw) : DrawsSolutions (fun c => do
      let node ← c.attach op
      draws.zipIdx.forM fun (draw, operand) => draw (node.sibling operand)) := by
  intro d c htyped hc
  refine (Cursor.ends_attach_onSolutions hcovered hon hc).bind fun node d₁ ⟨h₁, hnode⟩ => ?_
  exact (ends_drawOperands hdraws (h₁.graph.typed htyped) hnode).mono fun _ _ h₂ => h₁.trans h₂

/-! ## Plans of their own -/

/-- The empty graph is typed. -/
theorem typed_empty : (Graph.empty : Graph Plan).Typed Plan.Typed := by
  refine ⟨rfl, fun s e he => ?_, fun id op hop => ?_⟩
  · rw [Graph.succeeding_empty] at he
    cases he
  · obtain ⟨-, rfl⟩ := Graph.eq_root_of_empty hop
    trivial

/-- Wiring that refers to nothing is typed. -/
theorem wiring_none_typed (g : Graph Plan) : Wiring.none.Typed g := by
  constructor <;> exact fun _ h => absurd h List.not_mem_nil

/-- A draft with an empty graph, which planning starts from. -/
theorem Draft.KeepsKinds.graph_of_empty {d d' : Draft} (h : d.cleared.KeepsKinds d') :
    d'.graph.Typed Plan.Typed ∧ d'.wiring.Typed d'.graph :=
  ⟨h.graph.typed typed_empty, h.wiring (wiring_none_typed _)⟩

/-- A nested plan is typed if its body draws solutions. -/
theorem drawsPlan_nestedPlan {vars : VarSet} {body : DrawInto} (hbody : DrawsSolutions body) :
    DrawsPlan (nestedPlan vars body) := by
  intro d plan d' hrun
  rw [nestedPlan_runOn] at hrun
  split at hrun
  · next inner hdrawn =>
    obtain ⟨hplan, rfl⟩ := Prod.mk.inj hrun
    refine ⟨.of_eq rfl rfl, ?_⟩
    have hends : (do
        let result ← Draw.add (.result (.select vars.toList))
        body ⟨result, 0⟩ : Draw Unit).Ends d.cleared fun _ d' =>
          d.cleared.KeepsKinds d' := by
      refine (Draw.ends_add (.result (.select vars.toList)) trivial).bind
        fun result d₁ ⟨h₁, hresult⟩ => ?_
      exact (hbody d₁ _ (h₁.graph.typed typed_empty) (hresult.takes rfl)).mono
        fun _ _ h₂ => h₁.trans h₂
    obtain ⟨htyped, -⟩ := (hends () inner hdrawn).graph_of_empty
    cases hfinish : Graph.updateVariables.runOn inner.graph with
    | mk outcome G =>
        rw [hfinish] at hplan
        cases outcome with
        | error e => cases hplan
        | ok u =>
            obtain rfl := Except.ok.inj hplan
            obtain ⟨hkeeps, hordered⟩ := Graph.ends_updateVariables u G hfinish
            exact .of_graph (hkeeps.typed htyped) hordered
  · cases hrun

/-! ## Filters -/

/-- A filter covers its nested plans, one for each pattern of its condition. -/
theorem filterOver_covered {e : Expression} {plans : List Plan} {slot : Option FilterSlot}
    (hlength : plans.length = e.existencePatterns.length) (hplans : ∀ p ∈ plans, p.Typed) :
    (filterOver e plans slot).Covered Plan.Typed := by
  refine ⟨fun k hk => ?_, fun entry hentry => ?_⟩
  · have hlookup := lookup_zipIdx plans 0 k
    rw [Nat.zero_add] at hlookup
    show ((plans.zipIdx.map fun p => (p.2, p.1)).lookup k).isSome = true
    rw [hlookup, List.getElem?_eq_getElem (hlength ▸ hk)]
    rfl
  · obtain ⟨p, hp, rfl⟩ := List.mem_map.1 hentry
    exact hplans p.1 (List.fst_mem_of_mem_zipIdx hp)

/-- Attaching a filter keeps the cursor on solutions. -/
theorem ends_attachFilter {p : Planner} {e : Expression} {nested : List (Draw Plan)} {d : Draft}
    {c : Cursor} (hlength : nested.length = e.existencePatterns.length)
    (hnested : ∀ draw ∈ nested, DrawsPlan draw) (hc : d.graph.Takes c.target .solution) :
    (p.attachFilter e nested c).Ends d fun c' d' =>
      d.KeepsKinds d' ∧ d'.graph.Takes c'.target .solution := by
  intro c' d' hrun
  obtain ⟨plans, d₁, hplans, hattach⟩ := attachFilter_eq_ok hrun
  obtain ⟨h₁, htyped, hcount⟩ := Edit.ends_mapM Draft.KeepsKinds (fun p _ => p.Typed)
    (fun _ _ _ _ h => h) (fun draw hdraw d _ => hnested draw hdraw d) plans d₁ hplans
  have h₂ : d.KeepsKinds { d₁ with nextSlot := d₁.nextSlot + 1 } := h₁.trans (.of_eq rfl rfl)
  obtain ⟨h₃, hc'⟩ := Cursor.ends_attach_onSolutions
    (filterOver_covered (hcount.trans hlength) htyped) ⟨rfl, rfl⟩ (h₂.graph.takes hc) c' d' hattach
  exact ⟨h₂.trans h₃, hc'⟩

end QuadAlgebra
