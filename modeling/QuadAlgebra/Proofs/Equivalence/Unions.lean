import QuadAlgebra.Proofs.Equivalence.StandIns
import QuadAlgebra.Proofs.Optimization.Frames

/-!
# Unions that make place

A union is taken out of a graph by connecting its inputs to its consumers. The consumers have the
rows that they had before if these edges are new, since an edge that exists is not drawn a second
time. Under this condition, and if no operator depends on the order of rows, all operators that are
left have the same rows as before, as bags (`PlanRule.spliceUnion_same_rows`).
-/

namespace QuadAlgebra

open List (Perm)

namespace Graph

/-- A graph in which the inputs of a union have taken its place, over new edges. -/
structure Spliced {γ : Type} (g g' : Graph γ) (u : OperatorId) : Prop where
  symmetric : g.Symmetric
  symmetric' : g'.Symmetric
  forward : g.Forward
  site : g.SpliceSite u
  fresh : ∀ i ∈ g.inputs u, ∀ e ∈ g.succeeding u, e ∉ g.succeeding i.source
  wired : g'.Wired g.slots.length (fun x => if x = u then none else g.operator? x)
    (splicedReads g.Reads u)

namespace Spliced

section Edges

variable {γ : Type} {g g' : Graph γ} {u x : OperatorId} {i : Input}

/-- What the union reads. -/
def sources (g : Graph γ) (u : OperatorId) : List OperatorId := (g.inputs u).map Input.source

theorem reads_iff (h : g.Spliced g' u) (hx : x ≠ u) : g'.Reads x i ↔
    (g.Reads x i ∧ i.source ≠ u) ∨
    (i.source ∈ sources g u ∧ g.Reads x ⟨u, i.operand, i.feedback⟩) := by
  rw [h.wired.reads]
  refine or_congr ⟨fun ⟨hi, _, hu⟩ => ⟨hi, hu⟩, fun ⟨hi, hu⟩ => ⟨hi, hx, hu⟩⟩ ?_
  constructor
  · rintro ⟨j, f, hj, hx, hi⟩
    have hinput := h.symmetric.linked.mem_inputs.2 hj
    have hflag : i.feedback = f := by
      rw [congrArg Input.feedback hi, h.forward.inputs h.symmetric.linked j hinput, Bool.false_or]
    exact ⟨List.mem_map.2 ⟨j, hinput, (congrArg Input.source hi).symm⟩, hflag ▸ hx⟩
  · rintro ⟨hsource, hx⟩
    obtain ⟨j, hj, hsource⟩ := List.mem_map.1 hsource
    refine ⟨j, i.feedback, h.symmetric.linked.mem_inputs.1 hj, hx, ?_⟩
    rw [h.forward.inputs h.symmetric.linked j hj, Bool.false_or, hsource]

theorem source_ne (h : g.Spliced g' u) (hi : i ∈ g.inputs u) : i.source ≠ u := fun hsource =>
  have hi := h.symmetric.linked.mem_inputs.1 hi
  (h.site.apart i u hi i hi hsource).1 rfl

/-- The edges of the union have become edges of its inputs. -/
theorem inputs_perm (h : g.Spliced g' u) (hx : x ≠ u) :
    (g'.inputs x).Perm ((g.inputs x).flatMap (standIns u (sources g u))) := by
  refine inputs_perm_standIns h.symmetric h.symmetric' h.site.nodup (fun j => h.reads_iff hx)
    fun s hs k f hread hdirect => ?_
  obtain ⟨i, hi, rfl⟩ := List.mem_map.1 hs
  exact h.fresh i hi _ hread hdirect

theorem forward' (h : g.Spliced g' u) : g'.Forward := by
  intro s e he
  rcases (h.wired.reads e.target ⟨s, e.operand, e.feedback⟩).1 he with ⟨hi, -⟩ | ⟨j, f, hj, hx, hi⟩
  · exact h.forward s _ hi
  · refine (congrArg Input.feedback hi).trans ?_
    exact Bool.or_eq_false_iff.2 ⟨h.forward.inputs h.symmetric.linked j
      (h.symmetric.linked.mem_inputs.2 hj), h.forward u _ hx⟩

/-- What comes before an operator came before it when the union was there. -/
theorem topologicalOrder (h : g.Spliced g' u) {order : List OperatorId}
    (horder : g.IsTopological order) :
    ∃ order', g'.topologicalOrder = .ok order' := by
  obtain ⟨rank, hrank⟩ := h.forward.exists_rank h.symmetric.linked horder
  have hstep {x : OperatorId} {i : Input} (hi : g.Reads x i) : rank i.source < rank x :=
    hrank x i (h.symmetric.linked.mem_inputs.2 hi)
  suffices ∀ x, ∀ y ∈ g'.forward x, rank x < rank y from topologicalOrder_of_rank this
  intro x y hy
  obtain ⟨-, e, he, rfl, -⟩ := mem_forward.1 hy
  rcases (h.wired.reads e.target ⟨x, e.operand, e.feedback⟩).1 he with ⟨hi, -⟩ | ⟨j, f, hj, hx, hi⟩
  · exact hstep hi
  · obtain rfl : x = j.source := congrArg Input.source hi
    exact (hstep hj).trans (hstep hx)

end Edges

variable {g g' : Graph Plan} {u x : OperatorId} {src : Source} {limit : Nat} {rows : List Row}

/-- What a union produces is what its inputs produce. -/
theorem union_perm (hop : g.operator? u = some .union) (h : g.Produces src limit u rows) :
    rows.Perm ((g.inputs u).flatMap fun i => g.produced src limit i.source) := by
  obtain rfl := Except.ok.inj (h.emit_eq hop)
  exact rows_deliver_perm _

/-- An operator that is left produces the same rows as before, and the inputs of the union produce
what the union did. -/
theorem produces (h : g.Spliced g' u)
    (horder : ∀ x op, g.operator? x = some op → op.IgnoresOrder)
    (hrows : g.Produces src limit x rows) :
    (x ≠ u → ∃ rows', g'.Produces src limit x rows' ∧ rows.Perm rows') ∧
      (x = u → rows.Perm ((sources g u).flatMap (g'.produced src limit)) ∧
        ∀ s ∈ sources g u, ∃ rows', g'.Produces src limit s rows') := by
  induction hrows with
  | @root x hroot =>
      refine ⟨fun hx => ⟨_, .root ?_, .refl _⟩, fun hx => ?_⟩
      · rw [h.wired.operator?, if_neg hx, hroot]
      · rw [hx, h.site.union] at hroot
        cases hroot
  | @emits x op rows read hop hforward hread hemit ih =>
      have hproduces : g.Produces src limit x rows := .emits read hop hforward hread hemit
      have hsame (i : Input) (hi : i ∈ g.inputs x) (hne : i.source ≠ u) :
          (∃ rows', g'.Produces src limit i.source rows') ∧
            (g.produced src limit i.source).Perm (g'.produced src limit i.source) := by
        obtain ⟨rows', hrows', hperm⟩ := (ih i hi).1 hne
        exact ⟨⟨rows', hrows'⟩, by rwa [(hread i hi).produced_eq, hrows'.produced_eq]⟩
      refine ⟨fun hx => ?_, fun hx => ?_⟩
      · obtain ⟨i₀, hi₀⟩ := h.site.fed
        have hsome : sources g u ≠ [] := by
          simpa [sources] using List.ne_nil_of_mem (h.symmetric.linked.mem_inputs.2 hi₀)
        refine hproduces.of_standIns hop (by rw [h.wired.operator?, if_neg hx, hop])
          (horder x op hop)
          (h.inputs_perm hx) hsome (h.forward'.inputs h.symmetric'.linked) (fun j hj => ?_)
          fun i hi => ?_
        · obtain ⟨i, hi, hj⟩ := List.mem_flatMap.1 ((h.inputs_perm hx).mem_iff.1 hj)
          rcases mem_standIns.1 hj with ⟨rfl, hne⟩ | ⟨hs, rfl⟩
          · exact (hsame i hi hne).1
          · exact ((ih _ hi).2 rfl).2 _ hs
        · unfold standIns
          split
          · next hi' =>
            rw [(hread i hi).produced_eq, List.flatMap_map]
            exact ((ih i hi).2 hi').1
          · next hne =>
            rw [List.flatMap_singleton]
            exact (hsame i hi hne).2
      · subst hx
        refine ⟨(union_perm h.site.union hproduces).trans ?_, fun s hs => ?_⟩
        · rw [sources, List.flatMap_map]
          exact Perm.flatMap_left _ fun i hi => (hsame i hi (h.source_ne hi)).2
        · obtain ⟨i, hi, rfl⟩ := List.mem_map.1 hs
          exact (hsame i hi (h.source_ne hi)).1

end Spliced

end Graph

namespace PlanRule

/-- Where a union makes place in a graph without feedback edges, the evaluation still succeeds, and
all operators that are left have the same rows as before, as bags, if no operator depends on the
order of rows and no input of the union has already been read by a consumer of the union on the same
operand. -/
theorem spliceUnion_same_rows {w : Workspace Plan} (h : w.graph.Symmetric)
    (hroot : w.graph.operator? Graph.root = some .root) (hforward : w.graph.Forward)
    (horder : ∀ x op, w.graph.operator? x = some op → op.IgnoresOrder)
    {union : OperatorId} {m : Match}
    (hop : w.graph.operator? union = some .union) (hm : spliceUnion.match? w.graph union = some m)
    (hfed : w.graph.inputs union ≠ []) (hread : w.graph.succeeding union ≠ [])
    (hfresh : ∀ i ∈ w.graph.inputs union, ∀ e ∈ w.graph.succeeding union,
      e ∉ w.graph.succeeding i.source) :
    (spliceUnion.replace m).Runs w fun _ w' =>
      (∀ x, w'.graph.operator? x = if x = union then none else w.graph.operator? x) ∧
      ∀ src limit a n, (Plan.opened ⟨w.graph⟩ src limit).finalRows src limit = .ok (a, n) →
        ∃ a' n', (Plan.opened ⟨w'.graph⟩ src limit).finalRows src limit = .ok (a', n') ∧
          ∀ x ∈ w'.graph.ids, (a'.rows x).Perm (a.rows x) := by
  obtain ⟨hsite, rfl⟩ := exists_spliceSite h.linked (by rw [Graph.kind?, hop]; rfl) hm hfed hread
  obtain ⟨⟨⟩, w', hrun, hwired⟩ := spliceUnion_runs h.linked hroot hsite
  have hsymmetric : w'.graph.Symmetric :=
    spliceUnion_keeps Workspace.keptBySteps_symmetric _ w h _ _ hrun
  have hspliced : w.graph.Spliced w'.graph union :=
    { symmetric := h, symmetric' := hsymmetric, forward := hforward, site := hsite
      fresh := hfresh, wired := hwired }
  have hids (x : OperatorId) : x ∈ w'.graph.ids ↔ x ∈ w.graph.ids ∧ x ≠ union := by
    rw [Graph.mem_ids, Graph.mem_ids, hwired.contains_iff,
      (Graph.Wired.of_linked h.linked).contains_iff]
    by_cases hx : x = union <;> simp [hx]
  refine ⟨⟨⟩, w', hrun, hwired.operator?, fun src limit a n ha => ?_⟩
  obtain ⟨⟨order, htop⟩, hlimit⟩ := Graph.exists_order_of_finalRows ha
  obtain ⟨order', htop'⟩ := hspliced.topologicalOrder (Graph.topologicalOrder_spec htop)
  have hproduces (x : OperatorId) (hx : x ∈ w'.graph.ids) :
      ∃ rows, w'.graph.Produces src limit x rows ∧ (a.rows x).Perm rows :=
    (hspliced.produces horder (Graph.produces_of_finalRows h.linked hforward ha
      ((hids x).1 hx).1)).1 ((hids x).1 hx).2
  obtain ⟨a', n', ha'⟩ := Graph.exists_finalRows hsymmetric.linked hspliced.forward' htop' hlimit
    fun x hx => (hproduces x hx).imp fun _ h => h.1
  refine ⟨a', n', ha', fun x hx => ?_⟩
  obtain ⟨rows, hrows, hperm⟩ := hproduces x hx
  rw [(Graph.produces_of_finalRows hsymmetric.linked hspliced.forward' ha' hx).unique hrows]
  exact hperm.symm

/-- Everything that is connected to something else, in one direction or the other. -/
def bothWays : Graph Plan :=
  Graph.edited [.add (.scan ⟨[⟨.var ⟨"s"⟩, .var ⟨"p"⟩, .var ⟨"o"⟩⟩], none, ⟨"main", true⟩⟩),
    .add (.scan ⟨[⟨.var ⟨"o"⟩, .var ⟨"p"⟩, .var ⟨"s"⟩⟩], none, ⟨"main", true⟩⟩), .add .union,
    .add (.result (.select [])), .connect 0 1 0 false, .connect 0 2 0 false, .connect 1 3 0 false,
    .connect 2 3 0 false, .connect 3 4 0 false]

theorem spliceUnion_same_rows_bothWays :
    (spliceUnion.replace ((Match.only 3).bindAll .input [1, 2])).Runs (.ofGraph bothWays)
      fun _ w' => ∀ src limit a n,
        (Plan.opened ⟨bothWays⟩ src limit).finalRows src limit = .ok (a, n) →
        ∃ a' n', (Plan.opened ⟨w'.graph⟩ src limit).finalRows src limit = .ok (a', n') ∧
          ∀ x ∈ w'.graph.ids, (a'.rows x).Perm (a.rows x) := by
  have hop : bothWays.operator? 3 = some .union := rfl
  refine (spliceUnion_same_rows (w := .ofGraph bothWays) (Graph.symmetric_edited _)
    (Graph.operator?_root_edited _) (Graph.forward_iff.2 (by decide)) (fun x op hx => ?_) hop rfl
    (by decide) (by decide) (by decide)).mono fun _ _ h => h.2
  have hid : x ∈ [0, 1, 2, 3, 4] := Graph.mem_ids_of_operator? hx
  simp only [List.mem_cons, List.not_mem_nil, or_false] at hid
  rcases hid with rfl | rfl | rfl | rfl | rfl <;> cases hx <;> trivial

end PlanRule

end QuadAlgebra
