import QuadAlgebra.Planning.Document
import QuadAlgebra.Proofs.Optimization.Edges
import QuadAlgebra.Proofs.Plan.Symmetry

/-!
# The wiring of rule programs

Heads are linked to matchers by recording edges with the heads first and with the matchers all at
once in the end. What comes of it is the graph from before with these feedback edges
(`Wiring.ends_link`).
-/

namespace QuadAlgebra

namespace Graph

variable {γ : Type} {g : Graph γ} {pushes : List (OperatorId × Edge)}

theorem pushed_append (more : List (OperatorId × Edge)) :
    g.pushed (pushes ++ more) = (g.pushed pushes).pushed more := List.foldl_append

theorem length_pushed : (g.pushed pushes).slots.length = g.slots.length := by
  induction pushes generalizing g with
  | nil => rfl
  | cons p rest ih => rw [pushed_cons, ih, length_mapNode]

theorem length_setParents : g.setParents.slots.length = g.slots.length := by
  unfold setParents
  generalize g.ids = ids
  suffices ∀ h : Graph γ, (ids.foldl (fun h id => h.mapNode id fun n =>
      { n with preceding := g.producers id }) h).slots.length = h.slots.length from this g
  induction ids with
  | nil => exact fun _ => rfl
  | cons id rest ih => exact fun h => (ih _).trans (length_mapNode _)

theorem mem_succeeding_pushed {s : OperatorId} {e : Edge} :
    e ∈ (g.pushed pushes).succeeding s ↔
      e ∈ g.succeeding s ∨ g.contains s = true ∧ (s, e) ∈ pushes := by
  by_cases hs : g.contains s = true
  · rw [succeeding_pushed pushes hs, List.mem_append, and_iff_right hs]
    simp
  · have hnone : (g.pushed pushes).contains s ≠ true := by rwa [contains_pushed]
    refine iff_of_false (fun he => hnone (contains_of_mem_succeeding he)) ?_
    rintro (he | ⟨hs', -⟩)
    · exact hs (contains_of_mem_succeeding he)
    · exact hs hs'

/-- Edges that are recorded with their producers are there once consumers have learnt of them. -/
theorem wired_pushed (h : g.Linked) (hpushes : ∀ p ∈ pushes, g.contains p.2.target = true) :
    (g.pushed pushes).setParents.Wired g.slots.length g.operator? fun x i =>
      g.Reads x i ∨ g.contains i.source = true ∧
      (i.source, ⟨x, i.operand, i.feedback⟩) ∈ pushes where
  linked := (balanced_pushed h hpushes).linked
  length := length_setParents.trans length_pushed
  operator? x := (operator?_setParents x).trans (operator?_pushed pushes x)
  reads x i := by rw [Reads, succeeding_setParents, mem_succeeding_pushed, Reads]

end Graph

/-- The edges from all producers to all consumers. -/
def linkEdges (producers consumers : List OperatorId) : List (OperatorId × Edge) :=
  producers.flatMap fun producer => consumers.map fun consumer => (producer, ⟨consumer, 0, true⟩)

theorem mem_linkEdges {producers consumers : List OperatorId} {s : OperatorId} {e : Edge} :
    (s, e) ∈ linkEdges producers consumers ↔
      s ∈ producers ∧ e.target ∈ consumers ∧ e.operand = 0 ∧ e.feedback = true := by
  obtain ⟨target, operand, feedback⟩ := e
  simp only [linkEdges, List.mem_flatMap, List.mem_map, Prod.mk.injEq, Edge.mk.injEq]
  constructor
  · rintro ⟨_, hs, _, ht, rfl, rfl, rfl, rfl⟩
    exact ⟨hs, ht, rfl, rfl⟩
  · rintro ⟨hs, ht, rfl, rfl⟩
    exact ⟨s, hs, target, ht, rfl, rfl, rfl, rfl⟩

theorem ends_linkAll_pushed (producers consumers : List OperatorId) (g : Graph Plan) :
    (linkAll producers consumers).Ends g fun _ g' =>
      g' = g.pushed (linkEdges producers consumers) := by
  have hpush (s : OperatorId) (e : Edge) (h : Graph Plan) :
      (Graph.pushSucceeding s e).Ends h fun _ h' => h' = h.pushed [(s, e)] :=
    fun _ _ hrun => (congrArg Prod.snd hrun).symm
  unfold linkAll
  refine Edit.ends_forM_of_step (fun (done : List OperatorId) g' =>
    g' = g.pushed (linkEdges done consumers)) rfl fun done producer rest _ g₁ h₁ => ?_
  refine (Edit.ends_forM_of_step (fun (done : List OperatorId) g' =>
    g' = g₁.pushed (done.map fun consumer => (producer, ⟨consumer, 0, true⟩))) rfl
      fun done consumer rest _ g₂ h₂ => ?_).mono fun _ g₂ h₂ => ?_
  · refine (hpush producer ⟨consumer, 0, true⟩ g₂).mono fun _ g₃ h₃ => ?_
    rw [h₃, h₂, List.map_append, Graph.pushed_append]
    rfl
  · rw [h₂, h₁, ← Graph.pushed_append]
    simp [linkEdges]

namespace Wiring

/-- The feedback edges of a rule program. -/
def links (w : Wiring) : List (OperatorId × Edge) :=
  linkEdges w.generators w.tripleMatchers ++ linkEdges w.atomHeads w.atomMatchers

theorem ends_link (w : Wiring) (g : Graph Plan) :
    w.link.Ends g fun _ g' => g' = (g.pushed w.links).setParents := by
  unfold link
  refine (ends_linkAll_pushed _ _ g).bind fun _ g₁ h₁ => ?_
  subst h₁
  refine (ends_linkAll_pushed _ _ _).bind fun _ g₂ h₂ => Edit.ends_modify.2 ?_
  rw [h₂, links, Graph.pushed_append]

end Wiring

end QuadAlgebra
