import QuadAlgebra.Proofs.Optimization.Fixpoints
import QuadAlgebra.Proofs.Planning.Filters
import QuadAlgebra.Proofs.Variables.Loops

/-!
# Sketches of patterns

A drawing that feeds a cursor leads from any sketch to one that extends it (`FeedsSketch`). That
holds of all groups and of the solutions of all queries (`Group.feedsSketch`,
`Query.feedsSketch`), whether rules are planned or not. Plans nested in filters are drawn on
sketches of their own and finished at once.
-/

namespace QuadAlgebra

/-! ## Finished sketches -/

namespace Sketch

variable {rules : Bool} {k k' : Sketch rules} {id : OperatorId} {op : Operator Plan} {c : Cursor}

/-- A regular graph stays regular when nothing but its variable sets changes. -/
theorem regular_congr {k : Sketch rules} {g : Graph Plan} {size : Nat}
    (h : g.Wired size k.graph.operator? k.graph.Reads) : g.Regular rules k.shapes := by
  have hextension : Graph.Extension rules k.graph g k.shapes k.shapes fun _ => False :=
    { linked := h.linked
      unshaped := fun _ hx => hx.elim
      same := fun x _ => h.operator? x
      same_shape := fun _ _ => rfl
      same_reads := fun x i _ => h.reads x i
      kept := fun _ _ hx => hx.elim
      fed := fun _ _ hx => hx.elim
      settled := fun _ _ _ hx => hx.elim
      feedback := fun _ _ hx => hx.elim
      unlooped := fun _ _ hx => hx.elim }
  exact hextension.regular k.regular

/-- A sketch is finished once its variable sets have been computed. -/
theorem finished {g : Graph Plan} (k : Sketch rules)
    (hfinish : Graph.updateVariables.runOn k.graph = (.ok (), g)) :
    (⟨g⟩ : Plan).Finished rules := by
  have hlinked : k.graph.Wired k.graph.slots.length k.graph.operator? k.graph.Reads :=
    .of_linked k.regular.linked
  have hwired := Graph.wired_updateVariables hlinked () g hfinish
  have hnested (id : OperatorId) (op : Operator Plan) (hop : g.operator? id = some op) :
      ∀ e ∈ op.nested, e.2.Finished false :=
    k.nested id op ((hwired.operator? id).symm.trans hop)
  refine ⟨.intro _ _ k.shapes (regular_congr hwired)
    (fun _ => Graph.sane_of_updateVariables hlinked k.regular.root k.unfed hfinish)
      fun id op hop e he => (hnested id op hop e he).1, fun part hpart => ?_⟩
  cases hpart with
  | self => exact Graph.updateVariables_again hfinish
  | nested hop he hpart => exact (hnested _ _ hop _ he).2 part hpart

/-- The sketch that every drawing of a plan starts from. -/
theorem exists_empty (rules : Bool) : ∃ k : Sketch rules, k.graph = .empty ∧ k.wiring = .none := by
  have hregular : (Graph.empty : Graph Plan).Regular rules
      fun id => if id = Graph.root then some ∅ else none :=
    { linked := Graph.drawn_empty.linked
      root := rfl
      root_shape := if_pos rfl
      settled := fun id op D hop hD => by
        obtain ⟨rfl, rfl⟩ := Graph.eq_root_of_empty hop
        exact (Option.some.inj ((if_pos rfl).symm.trans hD)).symm
      sources := fun id op hop hkind => by
        obtain ⟨-, rfl⟩ := Graph.eq_root_of_empty hop
        simp [Operator.kind] at hkind
      optional := fun _ _ _ hi => absurd hi (Graph.not_reads_empty _)
      back := fun _ _ hi => absurd hi (Graph.not_reads_empty _)
      plain := fun _ id op hop => by
        obtain ⟨-, rfl⟩ := Graph.eq_root_of_empty hop
        simp [Operator.kind, Graph.ruleKinds]
      renamed := fun _ _ _ _ _ _ hi => absurd hi (Graph.not_reads_empty _)
      loopUnion := fun _ _ _ hi => absurd hi (Graph.not_reads_empty _) }
  refine ⟨{ graph := .empty, wiring := .none, shapes := _, regular := hregular,
            unfed := Graph.not_reads_empty, dead := fun id hid => if_neg ?_,
            nested := fun id op hop e he => ?_,
            wired := ⟨fun _ h => absurd h List.not_mem_nil, fun _ h => absurd h List.not_mem_nil⟩ },
    rfl, rfl⟩
  · rintro rfl
    cases hid
  · obtain ⟨-, rfl⟩ := Graph.eq_root_of_empty hop
    cases he

end Sketch

/-! ## Cursors -/

/-- An operator that carries no plans and may have any inputs. -/
def Operator.isPassing (op : Operator Plan) : Bool :=
  op.isOrdinary && !List.contains [Kind.scan, .probe, .replaceVar] op.kind

/-- A passing operator is ordinary, and no source or renaming. -/
theorem Operator.isPassing_iff {op : Operator Plan} : op.isPassing = true ↔
    op.isOrdinary = true ∧ op.kind ∉ [Kind.scan, .probe, .replaceVar] := by
  rw [isPassing, Bool.and_eq_true, Bool.not_eq_true', ← Bool.not_eq_true, List.contains_iff_mem]

namespace Sketch

variable {rules : Bool} {k k' : Sketch rules} {id : OperatorId} {op : Operator Plan} {c : Cursor}

/-- An operator without a shape, which may be fed. -/
structure IsOpen (k : Sketch rules) (id : OperatorId) (op : Operator Plan) : Prop where
  operator : k.graph.operator? id = some op
  shape : k.shapes id = none

/-- An operator that is open stays so as long as nothing else happens to it. -/
theorem IsOpen.mono (h : k.IsOpen id op) (hle : k.Extends k') : k'.IsOpen id op :=
  ⟨hle.operators _ _ h.operator, (hle.shapes _ (by simp [h.operator])).trans h.shape⟩

/-- An open operator may be fed, a left join on two operands at most. -/
theorem IsOpen.takes (h : k.IsOpen c.target op) (hkind : op.kind ∉ [.scan, .probe, .replaceVar])
    (hoperand : op.kind = .optional → c.operand ≤ 1) : k.Takes c :=
  ⟨⟨op, h.operator, hkind, hoperand⟩, h.shape⟩


end Sketch

namespace Sketches

open PathPlanner (inputsFrom)

variable {rules : Bool} {k k' : Sketch rules} {id s : OperatorId} {op : Operator Plan} {c : Cursor}

/-- An operator that reads nothing, or the root, and does not have a shape. -/
theorem combine {inputs : List OperatorId} (hop : op.Drawable rules)
    (hoptional : op.kind = .optional → inputs = [])
    (hsource : op.kind ∈ [.scan, .probe] → inputs = [Graph.root])
    (hrenamed : op.kind = .replaceVar → inputs = []) (hinputs : ∀ s ∈ inputs, s = Graph.root) :
    Sketches k (PathPlanner.combine op inputs) fun k' id =>
      k.Extends k' ∧ k'.IsOpen id op ∧ k'.graph.Unlooped id := by
  refine (PathPlanner.sketches_combine none hop hoptional hsource (fun hr s hs => ?_)
    (fun s hs => ?_) fun D hD => (Option.some_ne_none D hD.symm).elim).mono
      fun k' id hadds => ⟨hadds.toExtends, ⟨hadds.operator, hadds.shape⟩, fun i _ hi => ?_⟩
  · rw [hrenamed hr] at hs
    cases hs
  · rw [hinputs s hs]
    exact ⟨Sketch.live_root, Sketch.unlooped_root⟩
  · exact (PathPlanner.mem_inputsFrom ((hadds.inputs i).1 hi)).1

/-- An operator that is still to be fed. -/
theorem add (hop : op.Drawable rules) (hkind : op.kind ∉ [.scan, .probe]) :
    Sketches k (Draw.add op) fun k' id =>
      k.Extends k' ∧ k'.IsOpen id op ∧ k'.graph.Unlooped id := by
  have hadd : (Draw.add op : Draw OperatorId) = PathPlanner.combine op [] := by
    simp [PathPlanner.combine]
  rw [hadd]
  exact combine hop (fun _ => rfl) (fun hs => absurd hs hkind) (fun _ => rfl)
    fun s hs => absurd hs List.not_mem_nil

/-- An edge from an operator that may be read. -/
theorem feed (hc : k.Takes c) (hs : k.graph.Unlooped s) :
    Sketches k (c.feed s) fun k' _ => k.Extends k' :=
  (Sketches.connect (hc.accepts hs)).mono fun _ _ h => h.2.1

/-- An operator is attached and is open itself then. -/
theorem attach (hc : k.Takes c) (hop : op.Drawable rules) (hkind : op.kind ∉ [.scan, .probe]) :
    Sketches k (c.attach op) fun k' c' =>
      k.Extends k' ∧ k'.IsOpen c'.target op ∧ c'.operand = 0 := by
  unfold Cursor.attach
  refine (add hop hkind).bind fun k₁ id ⟨h₁, hopen, hunlooped⟩ => ?_
  refine (feed (hc.mono h₁) hunlooped).bind fun k₂ _ h₂ => .pure ⟨h₁.trans h₂, hopen.mono h₂, rfl⟩

/-- A source is attached and is never fed by anything else than the root. -/
theorem attachSource (hc : k.Takes c) (hop : op.Drawable rules)
    (hkind : op.kind ∉ [.optional, .replaceVar]) :
    Sketches k (c.attachSource op) fun k' _ => k.Extends k' := by
  simp only [List.mem_cons, List.not_mem_nil, or_false, not_or] at hkind
  unfold Cursor.attachSource
  rw [PathPlanner.addSource_eq_above, PathPlanner.above_eq_combine]
  refine (combine hop (fun he => absurd he hkind.1) (fun _ => rfl) (fun he => absurd he hkind.2)
    fun s hs => List.mem_singleton.1 hs).bind fun k₁ id ⟨h₁, _, hunlooped⟩ => ?_
  exact (feed (hc.mono h₁) hunlooped).mono fun _ _ h₂ => h₁.trans h₂

end Sketches

/-! ## Drawings that feed a cursor -/

/-- Whatever may be fed, the drawing feeds it and leaves the rest of the sketch alone. -/
def FeedsSketch (rules : Bool) (draw : DrawInto) : Prop :=
  ∀ (k : Sketch rules) (c : Cursor), k.Takes c → Sketches k (draw c) fun k' _ => k.Extends k'

namespace FeedsSketch

variable {rules : Bool} {draw first second : DrawInto} {op : Operator Plan}

/-- A source may be attached to whatever may be fed. -/
theorem attachSource (op : Operator Plan) (hop : op.isOrdinary = true)
    (hkind : op.kind ∉ [.optional, .replaceVar]) : FeedsSketch rules fun c => c.attachSource op :=
  fun _ _ hc => Sketches.attachSource hc (Operator.drawable_of_isOrdinary hop) hkind

/-- A drawing below a new operator. -/
theorem below {next : Cursor → Draw Unit} (hop : op.Drawable rules)
    (hkind : op.kind ∉ [.scan, .probe, .replaceVar])
    (hnext : ∀ (k : Sketch rules) (c : Cursor), k.IsOpen c.target op → c.operand = 0 →
      Sketches k (next c) fun k' _ => k.Extends k') :
    FeedsSketch rules (fun c => do next (← c.attach op)) := by
  simp only [List.mem_cons, List.not_mem_nil, or_false, not_or] at hkind
  refine fun k c hc => (Sketches.attach hc hop (by simp [hkind])).bind
    fun k₁ c₁ ⟨h₁, hopen, hzero⟩ => ?_
  exact (hnext k₁ c₁ hopen hzero).mono fun _ _ h₂ => h₁.trans h₂

/-- A drawing may go on below an operator that is attached. -/
theorem attach (op : Operator Plan) (hop : op.isPassing = true) (hdraw : FeedsSketch rules draw) :
    FeedsSketch rules (fun c => do draw (← c.attach op)) := by
  obtain ⟨hop, hkind⟩ := Operator.isPassing_iff.1 hop
  exact below (Operator.drawable_of_isOrdinary hop) hkind fun k c hopen hzero =>
    hdraw k c (hopen.takes hkind fun _ => hzero ▸ Nat.zero_le 1)

/-- What has a domain may feed whatever may be fed. -/
theorem feed {draw : Draw OperatorId} {D : VarSet} (hdraw : Sketch.DrawsDomain rules draw D) :
    FeedsSketch rules (fun c => do c.feed (← draw)) := fun k c hc =>
  (hdraw k).bind fun k₁ id h₁ => by
    have hle := h₁.beside.toExtends
    have hoffers := h₁.offers (id, D) List.mem_cons_self
    exact (Sketches.feed (hc.mono hle) hoffers.unlooped).mono fun _ _ h₂ => hle.trans h₂

/-- A check before a drawing. -/
theorem after {α : Type} {check : Draw α}
    (hcheck : ∀ k : Sketch rules, Sketches k check fun k' _ => k' = k)
    (hdraw : FeedsSketch rules draw) : FeedsSketch rules (fun c => do let _ ← check; draw c) :=
  fun k c hc => (hcheck k).bind fun _ _ hk => hk ▸ hdraw k c hc

/-- Two drawings that feed two operands of a new operator. -/
theorem both (op : Operator Plan) (hop : op.isPassing = true) (hfirst : FeedsSketch rules first)
    (hsecond : FeedsSketch rules second) : FeedsSketch rules (fun c => do
      let node ← c.attach op
      first node
      second (node.sibling 1)) := by
  obtain ⟨hop, hkind⟩ := Operator.isPassing_iff.1 hop
  refine below (Operator.drawable_of_isOrdinary hop) hkind fun k c hopen hzero => ?_
  refine (hfirst k c (hopen.takes hkind fun _ => hzero ▸ Nat.zero_le 1)).bind fun k₁ _ h₁ => ?_
  have hopen₁ := hopen.mono h₁
  exact (hsecond k₁ (c.sibling 1)
    (hopen₁.takes (c := c.sibling 1) hkind fun _ => Nat.le_refl 1)).mono
    fun _ _ h₂ => h₁.trans h₂

/-- Drawings that feed one operand each of a new operator. -/
theorem operands (op : Operator Plan) (hop : op.isPassing = true) (hoptional : op.kind ≠ .optional)
    {draws : List DrawInto} (hdraws : ∀ draw ∈ draws, FeedsSketch rules draw) :
    FeedsSketch rules (fun c => do
      let node ← c.attach op
      draws.zipIdx.forM fun (draw, operand) => draw (node.sibling operand)) := by
  obtain ⟨hop, hkind⟩ := Operator.isPassing_iff.1 hop
  refine below (Operator.drawable_of_isOrdinary hop) hkind fun k c hopen _ =>
    .forM fun e he k₁ h₁ => ?_
  refine hdraws e.1 (List.fst_mem_of_mem_zipIdx he) k₁ (c.sibling e.2) ?_
  exact (hopen.mono h₁).takes (c := c.sibling e.2) hkind fun he => absurd he hoptional

end FeedsSketch

/-! ## Nested plans and filters -/

/-- Whatever the sketch is, the drawing ends with a finished plan and leaves the sketch alone. -/
def DrawsFinished (draw : Draw Plan) : Prop :=
  ∀ {rules : Bool} (k : Sketch rules), Sketches k draw fun k' plan => k' = k ∧ plan.Finished false

/-- A plan of its own is finished, whatever else has been drawn. -/
theorem drawsFinished_nestedPlan {vars : VarSet} {body : DrawInto}
    (hbody : FeedsSketch false body) :
    DrawsFinished (nestedPlan vars body) := by
  intro rules k d hd plan d' hrun
  obtain ⟨k₀, hgraph₀, hwiring₀⟩ := Sketch.exists_empty false
  have hdrawing : Sketches k₀ (do
      let result ← Draw.add (.result (.select vars.toList))
      body ⟨result, 0⟩ : Draw Unit) fun _ _ => True :=
    (Sketches.add (Operator.drawable_of_isOrdinary rfl) (by simp [Operator.kind])).bind
      fun k₁ id ⟨_, hopen, _⟩ => (hbody k₁ ⟨id, 0⟩ (hopen.takes (by simp [Operator.kind])
        fun he => Kind.noConfusion he)).mono fun _ _ _ => trivial
  rw [nestedPlan_runOn] at hrun
  split at hrun
  · next inner hdrawn =>
    obtain ⟨hplan, rfl⟩ := Prod.mk.inj hrun
    obtain ⟨k₁, hinner, -⟩ := hdrawing _ ⟨hgraph₀.symm, hwiring₀.symm⟩ () inner hdrawn
    cases hfinish : Graph.updateVariables.runOn inner.graph with
    | mk outcome G =>
        rw [hfinish] at hplan
        cases outcome with
        | error e => cases hplan
        | ok u =>
            obtain rfl := Except.ok.inj hplan
            exact ⟨k, ⟨hd.graph, hd.wiring⟩, rfl, k₁.finished (hinner.graph ▸ hfinish)⟩
  · cases hrun

/-- A filter may be drawn with plans that are finished. -/
theorem drawable_filterOver {rules : Bool} {e : Expression} {plans : List Plan}
    {slot : Option FilterSlot} (hplans : ∀ plan ∈ plans, plan.Finished false) :
    (filterOver e plans slot).Drawable rules := by
  refine ⟨fun _ => show Kind.filter ∉ Graph.ruleKinds by decide, fun entry hentry => ?_⟩
  obtain ⟨place, hplace, rfl⟩ := List.mem_map.1 hentry
  exact hplans place.1 (List.fst_mem_of_mem_zipIdx hplace)

/-- All plans for a condition are drawn finished. -/
def PlansFinished (nested : List (Draw Plan)) : Prop := ∀ draw ∈ nested, DrawsFinished draw

namespace Sketches

variable {rules : Bool} {k : Sketch rules} {p : Planner} {c : Cursor}

/-- Drawings that leave the sketch alone, one after the other. -/
theorem mapM {α β : Type} {l : List α} {f : α → Draw β} {post : β → Prop}
    (h : ∀ a ∈ l, Sketches k (f a) fun k' b => k' = k ∧ post b) :
    Sketches k (l.mapM f) fun k' bs => k' = k ∧ ∀ b ∈ bs, post b := by
  induction l with
  | nil => exact .pure ⟨rfl, fun _ h => absurd h List.not_mem_nil⟩
  | cons a rest ih =>
      rw [List.mapM_cons]
      refine (h a List.mem_cons_self).bind fun k₁ b ⟨hk, hb⟩ => ?_
      subst hk
      refine (ih fun a ha => h a (List.mem_cons_of_mem _ ha)).bind fun k₂ bs ⟨hk, hbs⟩ => ?_
      subst hk
      exact .pure ⟨rfl, List.forall_mem_cons.2 ⟨hb, hbs⟩⟩

/-- Checks in a row. -/
theorem checks {α : Type} {l : List α} {f : α → Draw PUnit}
    (h : ∀ a ∈ l, Sketches k (f a) fun k' _ => k' = k) :
    Sketches k (l.forM f) fun k' _ => k' = k := by
  induction l with
  | nil => exact .pure rfl
  | cons a rest ih =>
      rw [List.forM_eq_forM, List.forM_cons]
      refine (h a List.mem_cons_self).bind fun k₁ _ hk => ?_
      subst hk
      exact ih fun a ha => h a (List.mem_cons_of_mem _ ha)

/-- A filter is attached once the plans for its condition are finished. -/
theorem attachFilter {e : Expression} {nested : List (Draw Plan)} (hnested : PlansFinished nested)
    (hc : k.Takes c) : Sketches k (p.attachFilter e nested c) fun k' c' =>
      k.Extends k' ∧ k'.Takes c' := by
  intro d hd c' d' hrun
  obtain ⟨plans, d₁, hplans, hattach⟩ := attachFilter_eq_ok hrun
  obtain ⟨k₁, hd₁, hk, hfinished⟩ :=
    Sketches.mapM (f := id) (fun draw hdraw => hnested draw hdraw k)
    d hd plans d₁ hplans
  subst hk
  obtain ⟨k₂, hd₂, h₂, hopen, hzero⟩ := Sketches.attach hc (drawable_filterOver hfinished)
    (by simp [filterOver, Operator.kind]) { d₁ with nextSlot := d₁.nextSlot + 1 }
    ⟨hd₁.graph, hd₁.wiring⟩ c' d' hattach
  exact ⟨k₂, hd₂, h₂, hopen.takes (by simp [filterOver, Operator.kind]) fun _ =>
    hzero ▸ Nat.zero_le 1⟩

/-- Operators that pass rows on, one above the other. -/
theorem attachAll {ops : List (Operator Plan)} (hops : ∀ op ∈ ops, op.isPassing = true)
    (hc : k.Takes c) :
    Sketches k (c.attachAll ops) fun k' c' => k.Extends k' ∧ k'.Takes c' := by
  unfold Cursor.attachAll
  induction ops generalizing k c with
  | nil => exact .pure ⟨.refl, hc⟩
  | cons op rest ih =>
      obtain ⟨hop, hkind⟩ := Operator.isPassing_iff.1 (hops op List.mem_cons_self)
      have hsource : op.kind ∉ [.scan, .probe] := by
        simp only [List.mem_cons, List.not_mem_nil, or_false, not_or] at hkind ⊢
        exact ⟨hkind.1, hkind.2.1⟩
      rw [List.foldlM_cons]
      refine (attach hc (Operator.drawable_of_isOrdinary hop) hsource).bind
        fun k₁ c₁ ⟨h₁, hopen, hzero⟩ => ?_
      refine (ih (fun op hop => hops op (List.mem_cons_of_mem _ hop))
        (hopen.takes hkind fun _ => hzero ▸ Nat.zero_le 1)).mono fun k₂ c₂ ⟨h₂, hc₂⟩ => ?_
      exact ⟨h₁.trans h₂, hc₂⟩

/-- Conditions are attached one below the other. -/
theorem attachFilters {conditions : List (Expression × List (Draw Plan))}
    (hnested : ∀ e ∈ conditions, PlansFinished e.2) (hc : k.Takes c) :
    Sketches k (conditions.foldlM (fun c (condition, plans) => p.attachFilter condition plans c) c)
      fun k' c' => k.Extends k' ∧ k'.Takes c' := by
  induction conditions generalizing k c with
  | nil => exact .pure ⟨.refl, hc⟩
  | cons e rest ih =>
      rw [List.foldlM_cons]
      refine (attachFilter (hnested e List.mem_cons_self) hc).bind fun k₁ c₁ ⟨h₁, hc₁⟩ => ?_
      refine (ih (fun e he => hnested e (List.mem_cons_of_mem _ he)) hc₁).mono
        fun k₂ c₂ ⟨h₂, hc₂⟩ => ⟨h₁.trans h₂, hc₂⟩

theorem require {enabled : Bool} {feature : String} :
    Sketches k (Planner.require enabled feature) fun k' _ => k' = k :=
  .ite (fun _ => .pure rfl) fun _ => .unsupported

/-- A check that may be left out before something else is done. -/
theorem optionally {α : Type} {cond : Prop} [Decidable cond] {check : Draw Unit}
    {next : Unit → Draw α}
    {post : Sketch rules → α → Prop} (hcheck : Sketches k check fun k' _ => k' = k)
    (hnext : Sketches k (next ()) post) :
    Sketches k (if cond then check >>= next else next ()) post :=
  .ite (fun _ => hcheck.bind fun _ _ hk => hk ▸ hnext) fun _ => hnext

end Sketches

/-! ## Solutions of queries -/

namespace Planner

variable {rules : Bool} {k : Sketch rules} {p : Planner}

/-- A grouping key needs no operators. -/
theorem sketches_groupKey (key : GroupKey) : Sketches k key.draw fun k' _ => k' = k ∧ True := by
  unfold GroupKey.draw
  split
  · exact .pure ⟨rfl, trivial⟩
  · exact .pure ⟨rfl, trivial⟩
  · exact Sketches.freshVar.bind fun _ _ hk => .pure ⟨hk, trivial⟩

theorem sketches_checkGrouping {o : Outputs} {selectsAll : Bool} {keys aggregates : List Variable} :
    Sketches k (checkGrouping o selectsAll keys aggregates) fun k' _ => k' = k := by
  unfold checkGrouping
  refine .optionally .malformed ?_
  split
  · exact .stopped
  · refine .checks fun b _ => ?_
    split
    · exact .malformed
    · exact .pure rfl

theorem sketches_liftExcept {α : Type} {outcome : Except Error α} :
    Sketches k (solutions.liftExcept outcome) fun k' _ => k' = k := by
  intro d hd a d' hrun
  obtain ⟨-, rfl⟩ := Prod.mk.inj (hrun : (outcome, d) = (.ok a, d'))
  exact ⟨k, hd, rfl⟩

/-- The layers of a query are attached one below the other, and the pattern below all of them. -/
theorem feedsSketch_solutions {form : QueryForm} {m : Modifiers} {nested : List (List (Draw Plan))}
    {pattern : DrawInto} (hnested : ∀ draws ∈ nested, PlansFinished draws)
    (hpattern : FeedsSketch rules pattern) :
    FeedsSketch rules (p.solutions form m nested pattern) := by
  have hnil : ∀ op ∈ ([] : List (Operator Plan)), op.isPassing = true :=
    fun _ h => absurd h List.not_mem_nil
  have hone {op : Operator Plan} (h : op.isPassing = true) : ∀ x ∈ [op], x.isPassing = true :=
    fun x hx => List.mem_singleton.1 hx ▸ h
  intro k c hc d hd
  unfold solutions
  refine Edit.ends_bind.2 (Edit.ends_get.2 ?_)
  dsimp only
  split
  next o extraction _ =>
  refine Edit.ends_bind.2 (Edit.ends_set.2 ?_)
  refine (Sketches.mapM (k := k) fun key _ => sketches_groupKey key).bind
    (fun k₁ grouped ⟨hk, _⟩ => ?_) { d with nextVar := extraction.nextVar } ⟨hd.graph, hd.wiring⟩
  subst hk
  refine .optionally sketches_checkGrouping ?_
  refine sketches_liftExcept.bind fun k₂ computed hk => ?_
  subst hk
  refine sketches_liftExcept.bind fun k₃ keys hk => ?_
  subst hk
  refine (Sketches.attachAll ?_ hc).bind fun k₄ c₁ ⟨h₄, hc₁⟩ => ?_
  · simp only [List.forall_mem_append]
    exact ⟨⟨⟨⟨⟨forall_option fun _ => rfl, forall_option fun _ => rfl⟩,
      forall_ite hnil (hone rfl)⟩, forall_option fun _ => rfl⟩,
      forall_ite hnil (hone rfl)⟩, forall_bindOperators (fun _ _ => rfl) _⟩
  · refine (Sketches.attachFilters (fun e he => hnested e.2 (List.of_mem_zip he).2) hc₁).bind
      fun k₅ c₂ ⟨h₅, hc₂⟩ => ?_
    refine (Sketches.attachAll ?_ hc₂).bind fun k₆ c₃ ⟨h₆, hc₃⟩ => ?_
    · simp only [List.forall_mem_append]
      exact ⟨forall_ite (hone rfl) hnil, forall_bindOperators (fun _ _ => rfl) _⟩
    · exact (hpattern k₆ c₃ hc₃).mono fun _ _ h₇ => h₄.trans (h₅.trans (h₆.trans h₇))

end Planner

/-! ## Parts of rule bodies -/

section RuleBodies

variable {rules : Bool} {k k' : Sketch rules} {p : Planner}

/-- A sketch with the same graph and the same shapes has grown by nothing. -/
theorem Sketch.Extends.of_eq (hgraph : k'.graph = k.graph) (hshapes : k'.shapes = k.shapes) :
    k.Extends k' where
  operators x op hop := by rwa [hgraph]
  shapes x _ := by rw [hshapes]
  reads x i hi := by rwa [hgraph]
  feedback x i _ hi _ := by rwa [hgraph] at hi

/-- Operators may be remembered for the wiring. -/
theorem Sketches.remember {f : Wiring → Wiring} (h : (f k.wiring).Fits k.graph) :
    Sketches k (modify fun d => { d with wiring := f d.wiring } : Draw PUnit) fun k' _ =>
      k.Extends k' ∧ k'.graph = k.graph := by
  refine fun d hd => Edit.ends_modify.2 ⟨{ k with wiring := f k.wiring, wired := h },
    ⟨hd.graph, ?_⟩,
    .of_eq rfl rfl, rfl⟩
  exact congrArg f hd.wiring

/-- Matchers that have been drawn may be wired. -/
theorem Wiring.Fits.matcher {w w' : Wiring} {g : Graph Plan} {matcher : OperatorId}
    {op : Operator Plan} (h : w.Fits g) (hop : g.operator? matcher = some op)
    (hkind : op.kind ∈ [.matchTriple, .matchAtom])
    (hheads : w'.generators ++ w'.atomHeads = w.generators ++ w.atomHeads)
    (hmatchers : ∀ id ∈ w'.tripleMatchers ++ w'.atomMatchers,
      id ∈ w.tripleMatchers ++ w.atomMatchers ∨ id = matcher) : w'.Fits g where
  heads := hheads ▸ h.heads
  matchers id hid := by
    rcases hmatchers id hid with hid | rfl
    · exact h.matchers id hid
    · exact ⟨op, hop, hkind⟩

/-- Operators that only rules have may be drawn where rules are. -/
theorem drawable_of_rules {op : Operator Plan} (hrules : rules = true) (hnested : op.nested = []) :
    op.Drawable rules := by
  refine ⟨fun h => absurd (hrules.symm.trans h) (by decide), fun e he => ?_⟩
  rw [hnested] at he
  cases he

/-- A triple pattern of a rule is matched in what is stored and in what is derived. -/
theorem feedsSketch_ruleTriple (hrules : rules = true) (graph : Option Item) (t : TriplePattern) :
    FeedsSketch rules (ruleTriple p graph t) := by
  refine FeedsSketch.below (Operator.drawable_of_isOrdinary rfl) (by simp [Operator.kind])
    fun k c hopen hzero => ?_
  have htakes {k' : Sketch rules} {n : Nat} (h : k.Extends k') : k'.Takes (c.sibling n) :=
    (hopen.mono h).takes (c := c.sibling n) (by simp [Operator.kind]) fun he => Kind.noConfusion he
  have hc : k.Takes c := hopen.takes (by simp [Operator.kind]) fun he => Kind.noConfusion he
  refine (FeedsSketch.attachSource (p.scan [t] graph) rfl (by simp [Planner.scan, Operator.kind])
    k c hc).bind fun k₁ _ h₁ => ?_
  refine (Sketches.add (drawable_of_rules hrules rfl) (by simp [Operator.kind])).bind
    fun k₂ matcher hstep => ?_
  obtain ⟨h₂, hmatcher, hunlooped⟩ := hstep
  refine (Sketches.feed (htakes (h₁.trans h₂)) hunlooped).bind fun k₃ _ h₃ => ?_
  refine (Sketches.remember
    (f := fun w => { w with tripleMatchers := w.tripleMatchers ++ [matcher] })
    ?_).mono fun k₄ _ h₄ => h₁.trans (h₂.trans (h₃.trans h₄.1))
  refine k₃.wired.matcher (hmatcher.mono h₃).operator (by simp [Operator.kind]) rfl fun id hid => ?_
  simp only [List.mem_append, List.mem_singleton] at hid ⊢
  tauto

/-- An atom is matched in what is derived only. -/
theorem feedsSketch_ruleAtom (hrules : rules = true) (a : Atom) :
    FeedsSketch rules (ruleAtom a) := by
  intro k c hc
  unfold ruleAtom
  refine (Sketches.add (drawable_of_rules hrules rfl) (by simp [Operator.kind])).bind
    fun k₁ matcher ⟨h₁, hmatcher, hunlooped⟩ => ?_
  refine (Sketches.remember (f := fun w => { w with atomMatchers := w.atomMatchers ++ [matcher] })
    ?_).bind fun k₂ _ ⟨h₂, hgraph⟩ => ?_
  · refine k₁.wired.matcher hmatcher.operator (by simp [Operator.kind]) rfl fun id hid => ?_
    simp only [List.mem_append, List.mem_singleton] at hid ⊢
    tauto
  · exact (Sketches.feed (hc.mono (h₁.trans h₂)) (hgraph ▸ hunlooped)).mono
      fun _ _ h₃ => h₁.trans (h₂.trans h₃)

end RuleBodies

/-! ## Segments -/

/-- All that a segment has gathered feeds sketches. -/
abbrev Segment.Feeds (rules : Bool) (s : Segment) : Prop := s.Each (FeedsSketch rules)

namespace Segment.Feeds

variable {rules : Bool} {s : Segment} {p : Planner}

/-- A triple that is stored, or stored or derived in the body of a rule. -/
theorem addTripleOf (h : s.Feeds rules) (hp : p.inRules = true → rules = true) (graph : Option Item)
    (t : TriplePattern) :
    (if p.inRules then s.addOther (ruleTriple p graph t) else s.addTriple t).Feeds rules := by
  split
  · next hrules => exact h.addOther (feedsSketch_ruleTriple (hp hrules) graph t)
  · exact h.addTriple t

/-- A path is gathered as a pattern if it can be scanned, and drawn as a path otherwise. -/
theorem addPath (h : s.Feeds rules) (hp : p.inRules = true → rules = true)
    (hscans : p.ScansPatterns) (graph : Option Item) (path : PathPattern) :
    (s.addPath p graph path).Feeds rules := by
  unfold Segment.addPath
  split
  · exact h.addTripleOf hp graph _
  · have hdraws : DrawsEnds rules ⟨p, graph⟩ (path.path.draw ⟨p, graph⟩) :=
      Path.drawsEnds (show p.ScansPatterns from hscans) path.path
    exact h.addOther (.feed (hdraws _ _))

/-- A segment feeds whatever may be fed with what it has gathered. -/
theorem feedsSketch (h : s.Feeds rules) (p : Planner) (graph : Option Item) :
    FeedsSketch rules (s.draw p graph) :=
  h.good_draw (.attachSource (.probe graph) rfl (by simp [Operator.kind]))
    (fun _ => .attachSource _ rfl (by simp [Planner.scan, Operator.kind]))
    fun _ hdraws => .operands .join rfl Kind.noConfusion hdraws

end Segment.Feeds

theorem sketches_requireNestable {rules : Bool} {k : Sketch rules} (q : Query) :
    Sketches k q.requireNestable fun k' _ => k' = k := by
  unfold Query.requireNestable
  dsimp only
  split
  · exact .ite (fun _ => .malformed) fun _ => .pure rfl
  · exact .stopped

/-! ## Groups -/

mutual

/-- Groups feed sketches. -/
theorem Group.feedsSketch : (g : Group) → {rules : Bool} → {p : Planner} →
    (p.inRules = true → rules = true) → p.ScansPatterns → (graph : Option Item) →
      FeedsSketch rules (g.draw p graph)
  | ⟨elements⟩, rules, p, hp, hscans, graph => fun k c hc => by
      unfold Group.draw
      refine (sketches_drawFilters elements hp hscans graph hc).bind fun k₁ c₁ ⟨h₁, hc₁⟩ => ?_
      exact ((drawElements_feeds elements hp hscans graph .start).feedsSketch p graph
        k₁ c₁ hc₁).mono
        fun _ _ h₂ => h₁.trans h₂

/-- The filters of a group are attached one below the other. -/
theorem sketches_drawFilters : (elements : List Element) → {rules : Bool} → {p : Planner} →
    (p.inRules = true → rules = true) → p.ScansPatterns → (graph : Option Item) →
      {k : Sketch rules} → {c : Cursor} → k.Takes c →
        Sketches k (drawFilters p graph elements c) fun k' c' => k.Extends k' ∧ k'.Takes c'
  | [], _, _, _, _, _, _, _, hc => .pure ⟨.refl, hc⟩
  | e :: rest, rules, p, hp, hscans, graph, k, c, hc => by
      cases e with
      | filter e =>
          unfold drawFilters
          refine (Sketches.attachFilter (e.drawNested_finished hscans graph) hc).bind
            fun k₁ c₁ ⟨h₁, hc₁⟩ => ?_
          exact (sketches_drawFilters rest hp hscans graph hc₁).mono
            fun _ _ ⟨h₂, hc₂⟩ => ⟨h₁.trans h₂, hc₂⟩
      | _ => exact sketches_drawFilters rest hp hscans graph hc

/-- The elements of a group are gathered from left to right. -/
theorem drawElements_feeds : (elements : List Element) → {rules : Bool} → {p : Planner} →
    (p.inRules = true → rules = true) → p.ScansPatterns → (graph : Option Item) → {s : Segment} →
      s.Feeds rules → (drawElements p graph elements s).Feeds rules
  | [], _, _, _, _, _, _, hs => hs
  | e :: rest, _, _, hp, hscans, graph, _, hs =>
      drawElements_feeds rest hp hscans graph ((e.draw_feeds hp hscans graph hs).scope _)

/-- An element adds to what has been gathered, or closes it off. -/
theorem Element.draw_feeds : (e : Element) → {rules : Bool} → {p : Planner} →
    (p.inRules = true → rules = true) → p.ScansPatterns → (graph : Option Item) → {s : Segment} →
      s.Feeds rules → (e.draw p graph s).Feeds rules
  | .triple t, _, p, hp, _, graph, s, hs => hs.addTripleOf hp graph t
  | .path path, _, p, hp, hscans, graph, _, hs => hs.addPath hp hscans graph path
  | .group g, _, _, hp, hscans, graph, _, hs => hs.addOther (g.feedsSketch hp hscans graph)
  | .union branches, rules, p, hp, hscans, graph, _, hs => by
      have hbranches := drawBranches_feeds branches hp hscans graph
      exact hs.addOther (DrawInto.good_several hbranches
        (.attachSource (.probe graph) rfl (by simp [Operator.kind]))
        (.operands .union rfl Kind.noConfusion hbranches))
  | .optional g, _, p, hp, hscans, graph, _, hs =>
      .close (.both .optional rfl (hs.feedsSketch p graph) (g.feedsSketch hp hscans graph))
  | .minus g, _, p, hp, hscans, graph, _, hs =>
      .close (.both .minus rfl (hs.feedsSketch p graph) (g.feedsSketch hp hscans graph))
  | .bind e target, _, p, _, _, graph, _, hs => .close fun k c hc =>
      .optionally .malformed (.optionally .unsupported
        (FeedsSketch.attach (.bind target e) rfl (hs.feedsSketch p graph) k c hc))
  | .graph name g, _, _, hp, hscans, _, _, hs =>
      hs.addOther (.after (fun _ => .require) (g.feedsSketch hp hscans (some name)))
  | .filter _, _, _, _, _, _, _, hs => hs
  | .subSelect q, _, _, hp, hscans, graph, _, hs =>
      hs.addOther (.after (fun _ => sketches_requireNestable q) (q.feedsSketch hp hscans graph))
  | .service endpoint g silent, _, _, _, _, _, _, hs =>
      hs.addOther (.after (fun _ => .require)
        (.attachSource (.service endpoint g silent) rfl (by simp [Operator.kind])))
  | .window w g, _, _, hp, hscans, graph, _, hs =>
      hs.addOther (.after (fun _ => .require)
        (.attach (.window w) rfl (g.feedsSketch hp hscans graph)))
  | .atom a, _, _, hp, _, _, _, hs => by
      refine hs.addOther fun k c hc => ?_
      split
      · next hrules => exact feedsSketch_ruleAtom (hp hrules) a k c hc
      · exact .malformed

/-- Each branch of a union may feed it. -/
theorem drawBranches_feeds : (branches : List Group) → {rules : Bool} → {p : Planner} →
    (p.inRules = true → rules = true) → p.ScansPatterns → (graph : Option Item) →
      ∀ draw ∈ drawBranches p graph branches, FeedsSketch rules draw
  | [], _, _, _, _, _, _, h => absurd h List.not_mem_nil
  | g :: rest, _, _, hp, hscans, graph, draw, h => by
      rcases List.mem_cons.1 h with rfl | h
      · exact g.feedsSketch hp hscans graph
      · exact drawBranches_feeds rest hp hscans graph draw h

/-- The solutions of queries feed sketches. -/
theorem Query.feedsSketch : (q : Query) → {rules : Bool} → {p : Planner} →
    (p.inRules = true → rules = true) → p.ScansPatterns → (graph : Option Item) →
      FeedsSketch rules (q.drawSolutions p graph)
  | ⟨_, _, some g, ⟨_, having, _, _, _⟩⟩, _, _, hp, hscans, graph =>
      Planner.feedsSketch_solutions (drawNestedOf_finished having hscans graph)
        (g.feedsSketch hp hscans graph)
  | ⟨_, _, none, ⟨_, having, _, _, _⟩⟩, _, _, _, hscans, graph =>
      Planner.feedsSketch_solutions (drawNestedOf_finished having hscans graph)
        (.attachSource (.probe graph) rfl (by simp [Operator.kind]))

/-- The plans for existence patterns are finished, whether rules are planned or not. -/
theorem Expression.drawNested_finished : (e : Expression) → {p : Planner} → p.ScansPatterns →
    (graph : Option Item) → PlansFinished (e.drawNested p graph)
  | .existence _ g, p, hscans, graph => fun draw hdraw =>
      List.mem_singleton.1 hdraw ▸ drawsFinished_nestedPlan
        (g.feedsSketch (p := { p with inRules := false })
          (fun h => Bool.noConfusion h) hscans graph)
  | .binary l _ r, _, hscans, graph => fun draw hdraw => by
      rcases List.mem_append.1 hdraw with hdraw | hdraw
      · exact l.drawNested_finished hscans graph draw hdraw
      · exact r.drawNested_finished hscans graph draw hdraw
  | .unary _ e, _, hscans, graph => e.drawNested_finished hscans graph
  | .call _ args, _, hscans, graph => fun draw hdraw => by
      obtain ⟨draws, hdraws, hdraw⟩ := List.mem_flatten.1 hdraw
      exact drawNestedOf_finished args hscans graph draws hdraws draw hdraw
  | .constant _, _, _, _ | .variable _, _, _, _ | .bound _, _, _, _ | .aggregate _, _, _, _ =>
      fun _ h => absurd h List.not_mem_nil

/-- The plans for all conditions are finished. -/
theorem drawNestedOf_finished : (es : List Expression) → {p : Planner} → p.ScansPatterns →
    (graph : Option Item) → ∀ draws ∈ drawNestedOf p graph es, PlansFinished draws
  | [], _, _, _, _, h => absurd h List.not_mem_nil
  | e :: rest, _, hscans, graph, draws, h => by
      rcases List.mem_cons.1 h with rfl | h
      · exact e.drawNested_finished hscans graph
      · exact drawNestedOf_finished rest hscans graph draws h

end

end QuadAlgebra
