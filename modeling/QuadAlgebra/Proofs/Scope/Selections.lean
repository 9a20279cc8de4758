import QuadAlgebra.Proofs.Modifiers.Extraction
import QuadAlgebra.Proofs.Planning.Groups
import QuadAlgebra.Proofs.Scope.Paths

/-!
# Labels of selections

What feeds a cursor is described by the variables that its rows may bind (`FeedsWithin`). A
selection of some variables binds no others, whatever its pattern binds
(`Planner.feedsWithin_explicit`). A selection of all variables is never grouped and computes
nothing, so it binds what its pattern binds (`Planner.feedsWithin_wildcard`).
-/

namespace QuadAlgebra

/-- The drawing feeds a cursor with rows that bind nothing but the given variables. -/
def FeedsWithin (V : Set Variable) (draw : DrawInto) : Prop :=
  ∀ (old : Graph Plan) (L : Labels) (c : Cursor), L.Takes c V →
    KeepsLabels old L (draw c) noClaim

namespace FeedsWithin

variable {V W : Set Variable} {draw : DrawInto}

theorem weaken (h : FeedsWithin V draw) (hVW : V ⊆ W) : FeedsWithin W draw :=
  fun old L c hc => h old L c (hc.weaken hVW)

theorem attachSource {op : Operator Plan} (hop : op.Fits (.within V)) :
    FeedsWithin V fun c => c.attachSource op := fun _ _ _ hc => .attachSource op hop hc

theorem attach {op : Operator Plan} (hop : op.Fits (.within V)) (hdraw : FeedsWithin V draw) :
    FeedsWithin V (fun c => do draw (← c.attach op)) :=
  fun _ _ _ hc => (KeepsLabels.attach op (.within V) hop hc).bind fun c' _ _ hc' =>
    hdraw _ _ c' (hc'.takes c'.operand)

theorem feed {draw : Draw OperatorId}
    (hdraw : ∀ (old : Graph Plan) (L : Labels),
      KeepsLabels old L draw fun L' id => L'.Emits id V) :
    FeedsWithin V (fun c => do c.feed (← draw)) :=
  fun _ _ _ hc => (hdraw _ _).bind fun _ _ hle hid => .feed hid (hc.mono hle)

theorem after {α : Type} {check : Draw α}
    (hcheck : ∀ (old : Graph Plan) (L : Labels), KeepsLabels old L check noClaim)
    (hdraw : FeedsWithin V draw) : FeedsWithin V (fun c => do let _ ← check; draw c) :=
  fun _ _ c hc => (hcheck _ _).bind fun _ _ hle _ => hdraw _ _ c (hc.mono hle)

/-- A check that may be left out before something else is drawn. -/
theorem optionally {p : Prop} [Decidable p] {check : Draw Unit} {next : Unit → Draw Unit}
    {old : Graph Plan} {L : Labels}
    (hcheck : KeepsLabels old L check noClaim)
    (hnext : ∀ L', L ≤ L' → KeepsLabels old L' (next ()) noClaim) :
    KeepsLabels old L (if p then check >>= next else next ()) noClaim :=
  .ite (fun _ => hcheck.bind fun _ L' hle _ => hnext L' hle) fun _ => hnext L le_rfl

/-- Several drawings feed the operands of one operator. -/
theorem operands {draws : List DrawInto} (hdraws : ∀ draw ∈ draws, FeedsWithin V draw)
    {old : Graph Plan} {L : Labels} {c : Cursor} (hc : L.Has c.target (.within V)) :
    KeepsLabels old L (draws.zipIdx.forM fun (draw, operand) => draw (c.sibling operand))
      noClaim :=
  .forM fun e he _ hle => hdraws e.1 (List.fst_mem_of_mem_zipIdx he) _ _ (c.sibling e.2)
    ((hc.mono hle).takes e.2)

/-- An operator over several drawings. -/
theorem overAll {op : Operator Plan} (hop : op.Fits (.within V)) {draws : List DrawInto}
    (hdraws : ∀ draw ∈ draws, FeedsWithin V draw) :
    FeedsWithin V (fun c => do
      let node ← c.attach op
      draws.zipIdx.forM fun (draw, operand) => draw (node.sibling operand)) :=
  fun _ _ _ hc => (KeepsLabels.attach op (.within V) hop hc).bind fun _ _ _ hc' =>
    operands hdraws hc'

/-- An operator over two drawings, the second of which may feed it with other rows. -/
theorem overTwo {op : Operator Plan} {l : Label} (hop : op.Fits l) {first second : DrawInto}
    (hreads : ∀ k, V ⊆ l.reads k) (hfirst : FeedsWithin V first)
    (hsecond : FeedsWithin (l.reads 1) second) : FeedsWithin l.emits (fun c => do
      let node ← c.attach op
      first node
      second (node.sibling 1)) :=
  fun _ _ _ hc => (KeepsLabels.attach op l hop hc).bind fun c' _ _ hc' =>
    (hfirst _ _ c' ((hc'.takes c'.operand).weaken (hreads c'.operand))).bind fun _ _ hle _ =>
      hsecond _ _ (c'.sibling 1) ((hc'.mono hle).takes 1)

end FeedsWithin

/-! ## Filters -/

/-- Plans of their own, whose drawing leaves the graph around them alone. -/
def PlansAside (nested : List (Draw Plan)) : Prop :=
  ∀ draw ∈ nested, ∀ d : Draft, draw.Ends d fun _ d' => d'.graph = d.graph

theorem nestedPlan_aside (vars : VarSet) (body : DrawInto) : PlansAside [nestedPlan vars body] := by
  intro draw hdraw d plan d' hrun
  rw [List.mem_singleton.1 hdraw, nestedPlan_runOn] at hrun
  split at hrun
  · obtain ⟨-, rfl⟩ := Prod.mk.inj hrun
    rfl
  · cases hrun

theorem PlansAside.append {l r : List (Draw Plan)} (hl : PlansAside l) (hr : PlansAside r) :
    PlansAside (l ++ r) :=
  fun draw hdraw => (List.mem_append.1 hdraw).elim (hl draw) (hr draw)

theorem plansAside_nil : PlansAside [] := fun _ h => absurd h List.not_mem_nil

mutual

theorem Expression.drawNested_aside (p : Planner) (graph : Option Item) :
    (e : Expression) → PlansAside (e.drawNested p graph)
  | .existence _ _ => nestedPlan_aside _ _
  | .binary l _ r => (l.drawNested_aside p graph).append (r.drawNested_aside p graph)
  | .unary _ e => e.drawNested_aside p graph
  | .call _ args => drawNestedOf_aside p graph args
  | .constant _ | .variable _ | .bound _ | .aggregate _ => plansAside_nil

theorem drawNestedOf_aside (p : Planner) (graph : Option Item) :
    (es : List Expression) → PlansAside (drawNestedOf p graph es).flatten
  | [] => plansAside_nil
  | e :: rest => (e.drawNested_aside p graph).append (drawNestedOf_aside p graph rest)

end

section Filters

variable {V : Set Variable} {p : Planner} {e : Expression} {nested : List (Draw Plan)} {c : Cursor}
  {old : Graph Plan} {L : Labels}

theorem keepsLabels_attachFilter (hnested : PlansAside nested) (hc : L.Takes c V) :
    KeepsLabels old L (p.attachFilter e nested c) fun L' c' => L'.Takes c' V := by
  intro d hd c' d' hrun
  obtain ⟨plans, d₁, hplans, hattach⟩ := attachFilter_eq_ok hrun
  have haside : ∀ draw ∈ nested, ∀ L', L ≤ L' → KeepsLabels old L' (id draw) noClaim :=
    fun draw hdraw _ _ => .of_graph_eq (hnested draw hdraw)
  obtain ⟨L₁, hle, hd₁, -⟩ :=
    KeepsLabels.mapM (fun _ _ _ _ h => h) haside d hd plans d₁ hplans
  obtain ⟨L₂, hle', hd', hc'⟩ := KeepsLabels.attach _ (.within V) (Operator.fits_filter _)
    (hc.mono hle) { d₁ with nextSlot := d₁.nextSlot + 1 } hd₁ c' d' hattach
  exact ⟨L₂, hle.trans hle', hd', hc'.takes c'.operand⟩

theorem keepsLabels_attachFilters {conditions : List Expression}
    {nested : List (List (Draw Plan))} (hnested : PlansAside nested.flatten) (hc : L.Takes c V) :
    KeepsLabels old L ((conditions.zip nested).foldlM
      (fun c (condition, plans) => p.attachFilter condition plans c) c)
        fun L' c' => L'.Takes c' V :=
  .foldlM hc fun _ e he _ _ hc => keepsLabels_attachFilter (fun draw hdraw =>
    hnested draw (List.mem_flatten.2 ⟨e.2, (List.of_mem_zip he).2, hdraw⟩)) hc

end Filters

/-! ## Selections -/

namespace Planner

variable {p : Planner} {old : Graph Plan} {L : Labels} {V : Set Variable}

theorem keepsLabels_groupKey (key : GroupKey) : KeepsLabels old L key.draw noClaim := by
  unfold GroupKey.draw
  split
  · exact .pure trivial
  · exact .pure trivial
  · exact KeepsLabels.freshVar.bind fun _ _ _ _ => .pure trivial

/-- Nothing is selected as a whole where solutions are grouped. -/
theorem keepsLabels_checkGrouping {o : Outputs} {selectsAll : Bool}
    {keys aggregates : List Variable} :
    KeepsLabels old L (checkGrouping o selectsAll keys aggregates)
      fun _ _ => selectsAll = false := by
  have hpost {draw : Draw Unit} (hall : selectsAll = false) (h : KeepsLabels old L draw noClaim) :
      KeepsLabels old L draw fun _ _ => selectsAll = false := h.mono fun _ _ _ _ => hall
  unfold checkGrouping
  refine .ite (fun _ => .stopped) fun hall => hpost (Bool.eq_false_iff.2 hall) ?_
  split
  · exact .stopped
  · refine .forM fun b _ _ _ => ?_
    split
    · exact .malformed
    · exact .pure trivial

theorem keepsLabels_liftExcept {α : Type} {outcome : Except Error α} :
    KeepsLabels old L (solutions.liftExcept outcome) fun _ a => outcome = .ok a := by
  intro d hd a d' hrun
  obtain ⟨houtcome, rfl⟩ := Prod.mk.inj (hrun : (outcome, d) = (.ok a, d'))
  exact ⟨L, le_rfl, hd, houtcome⟩

theorem fits_of_option {α : Type} {x : Option α} {f : α → Operator Plan}
    (hf : ∀ a, (f a).Fits (.within V)) : ∀ op ∈ (x.map f).toList, op.Fits (.within V) := by
  intro op hop
  obtain ⟨a, -, rfl⟩ := Option.map_eq_some_iff.1 (Option.mem_toList.1 hop)
  exact hf a

/-- Nothing but the pattern is drawn if nothing is computed. -/
theorem bindOperators_eq_nil {bindings computed : List Binding} (hnone : bindings = [])
    (h : Binding.sort bindings = .ok computed) : bindOperators computed = [] := by
  rw [hnone, Binding.sort_nil] at h
  obtain rfl := Except.ok.inj h
  rfl

theorem fits_of_ite {c : Prop} [Decidable c] {op : Operator Plan} (h : op.Fits (.within V)) :
    ∀ x ∈ if c then [] else [op], x.Fits (.within V) := by
  intro x hx
  split at hx
  · cases hx
  · exact List.mem_singleton.1 hx ▸ h

theorem fits_bindOperators {bindings : List Binding} :
    ∀ op ∈ bindOperators bindings, op.Fits (.within Set.univ) := by
  intro op hop
  obtain ⟨b, -, rfl⟩ := List.mem_map.1 hop
  exact Operator.fits_univ nofun

/-- A window of the sequence, without repetitions. -/
theorem fits_outer {limit offset : Option Nat} {c : Prop} [Decidable c] :
    ∀ op ∈ (limit.map Operator.limit).toList ++ (offset.map Operator.offset).toList ++
      (if c then [] else [Operator.distinct]), (op : Operator Plan).Fits (.within V) := by
  simp only [List.forall_mem_append]
  exact ⟨⟨fits_of_option Operator.fits_limit, fits_of_option Operator.fits_offset⟩,
    fits_of_ite Operator.fits_distinct⟩

/-- Below a projection rows may bind what they like. -/
theorem keepsLabels_attachProjection {c : Cursor} {outer inner innermost : List (Operator Plan)}
    {vars : VarSet} (houter : ∀ op ∈ outer, op.Fits (.within V)) (hvars : ∀ v ∈ vars, v ∈ V)
    (hinner : ∀ op ∈ inner ++ innermost, op.Fits (.within Set.univ)) (hc : L.Takes c V) :
    KeepsLabels old L (c.attachAll (outer ++ [.projection vars] ++ inner ++ innermost))
      fun L' c' => L'.Takes c' Set.univ := by
  unfold Cursor.attachAll
  rw [List.append_assoc, List.append_assoc, List.foldlM_append]
  refine (KeepsLabels.attachAll houter hc).bind fun c₁ _ _ hc₁ => ?_
  rw [List.singleton_append, List.foldlM_cons]
  refine (KeepsLabels.attach _ _ (Operator.fits_projection vars) (hc₁.weaken hvars)).bind
    fun c₂ _ _ hc₂ => ?_
  exact KeepsLabels.attachAll hinner (hc₂.takes c₂.operand)

/-- The operators of a selection, from its result down to its pattern. -/
theorem keepsLabels_stack {W : Set Variable} {o : Outputs} {bindings keys : List Binding}
    {nested : List (List (Draw Plan))} {outer inner : List Binding → List (Operator Plan)}
    {pattern : DrawInto} {c : Cursor} (hnested : PlansAside nested.flatten)
    (houter : ∀ computed L', Binding.sort bindings = .ok computed → L'.Takes c V →
      KeepsLabels old L' (c.attachAll (outer computed)) fun L'' c' => L''.Takes c' W)
    (hinner : ∀ computed, Binding.sort keys = .ok computed →
      ∀ op ∈ inner computed, op.Fits (.within W))
    (hpattern : FeedsWithin W pattern) (hc : L.Takes c V) : KeepsLabels old L (do
      let computed ← solutions.liftExcept (Binding.sort bindings)
      let computedKeys ← solutions.liftExcept (Binding.sort keys)
      let c ← c.attachAll (outer computed)
      let c ← (o.having.zip nested).foldlM (fun c (condition, plans) =>
        p.attachFilter condition plans c) c
      let c ← c.attachAll (inner computedKeys)
      pattern c) noClaim := by
  refine keepsLabels_liftExcept.bind fun computed _ hle hcomputed => ?_
  refine keepsLabels_liftExcept.bind fun computedKeys L₂ hle' hkeys => ?_
  refine (houter computed L₂ hcomputed (hc.mono (hle.trans hle'))).bind fun c₁ _ _ hc₁ => ?_
  refine (keepsLabels_attachFilters hnested hc₁).bind fun c₂ _ _ hc₂ => ?_
  exact (KeepsLabels.attachAll (hinner computedKeys hkeys) hc₂).bind fun c₃ _ _ hc₃ =>
    hpattern _ _ c₃ hc₃

/-- A selection of variables binds no others, whatever its pattern binds. -/
theorem feedsWithin_explicit {repeated : Duplicates} {items : List SelectItem} {m : Modifiers}
    {nested : List (List (Draw Plan))} {pattern : DrawInto} (hnested : PlansAside nested.flatten)
    (hitems : ∀ i ∈ items, i.target ∈ V) (hpattern : FeedsWithin Set.univ pattern) :
    FeedsWithin V (p.solutions (.select repeated (.explicit items)) m nested pattern) := by
  intro old L c hc d hd
  unfold solutions
  refine Edit.ends_bind.2 (Edit.ends_get.2 ?_)
  dsimp only
  split
  next o extraction hextract =>
  have hnamed := (Outputs.named_extract ⟨some items, m.having, m.orderBy⟩ ⟨[], d.nextVar⟩).2
  have htargets := hnamed.targets
  rw [hextract] at htargets
  obtain ⟨items', hitems', htargets⟩ := Option.map_eq_some_iff.1 htargets
  refine Edit.ends_bind.2 (Edit.ends_set.2 ?_)
  refine (KeepsLabels.mapM (fun _ _ _ _ h => h) fun key _ _ _ => keepsLabels_groupKey key).bind
    (fun grouped L₁ hle _ => ?_) { d with nextVar := extraction.nextVar } hd
  refine FeedsWithin.optionally (keepsLabels_checkGrouping.mono fun _ _ _ _ => trivial)
    fun L₂ hle' => keepsLabels_stack hnested (fun computed L₃ _ hc₃ => ?_)
      (fun _ _ => ?_) hpattern (hc.mono (hle.trans hle'))
  · rw [hitems', Option.map_some, Option.toList_some, htargets]
    refine keepsLabels_attachProjection fits_outer (fun v hv => ?_) (List.forall_mem_append.2
      ⟨fits_of_ite (Operator.fits_sort _), fits_bindOperators⟩) hc₃
    obtain ⟨i, hi, rfl⟩ := List.mem_map.1 (OrdSet.mem_ofList.1 hv)
    exact hitems i hi
  · refine List.forall_mem_append.2 ⟨fun op hop => ?_, fits_bindOperators⟩
    split at hop
    · exact List.mem_singleton.1 hop ▸ Operator.fits_univ nofun
    · cases hop

/-- A selection of all variables binds what its pattern binds. -/
theorem feedsWithin_wildcard {repeated : Duplicates} {m : Modifiers}
    {nested : List (List (Draw Plan))} {pattern : DrawInto} (hnested : PlansAside nested.flatten)
    (hpattern : FeedsWithin V pattern) :
    FeedsWithin V (p.solutions (.select repeated .wildcard) m nested pattern) := by
  obtain ⟨groupBy, having, orderBy, limit, offset⟩ := m
  intro old L c hc d hd
  unfold solutions
  refine Edit.ends_bind.2 (Edit.ends_get.2 ?_)
  dsimp only
  split
  next o extraction hextract =>
  have hitems := (Outputs.named_extract ⟨none, having, orderBy⟩ ⟨[], d.nextVar⟩).2.targets
  rw [hextract, Option.map_none, Option.map_eq_none_iff] at hitems
  -- whatever is grouped is not selected as a whole
  have hstopped {keys aggregates : List Variable} {next : Unit → Draw Unit} {L' : Labels} :
      KeepsLabels old L' (checkGrouping o (true && o.items.isNone) keys aggregates >>= next)
        noClaim :=
    keepsLabels_checkGrouping.bind fun _ _ _ hpost => by
      rw [hitems] at hpost
      cases hpost
  refine Edit.ends_bind.2 (Edit.ends_set.2 ?_)
  cases groupBy with
  | cons key rest =>
      refine (KeepsLabels.mapM (fun _ _ _ _ h => h) fun key _ _ _ => keepsLabels_groupKey key).bind
        (fun grouped L₁ hle _ => ?_) { d with nextVar := extraction.nextVar } hd
      exact .ite (fun _ => hstopped) fun hnot => absurd rfl hnot
  | nil =>
      rw [List.mapM_nil, pure_bind]
      refine KeepsLabels.ite (fun _ => hstopped) (fun hnot => ?_)
        { d with nextVar := extraction.nextVar } hd
      refine keepsLabels_stack hnested (fun computed L' hcomputed hc' => ?_)
        (fun computed hcomputed op hop => ?_) hpattern hc
      · rw [bindOperators_eq_nil (by rw [Outputs.bindings, hitems]; rfl) hcomputed, hitems,
          Option.map_none, Option.toList_none, List.append_nil, List.append_nil]
        refine KeepsLabels.attachAll (List.forall_mem_append.2 ⟨fits_outer, ?_⟩) hc'
        exact fits_of_ite (Operator.fits_sort _)
      · rw [bindOperators_eq_nil rfl hcomputed, if_neg hnot] at hop
        cases hop

end Planner

end QuadAlgebra
