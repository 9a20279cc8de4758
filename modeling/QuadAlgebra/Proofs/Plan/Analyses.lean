import Mathlib.Data.Finset.Card
import QuadAlgebra.Proofs.Plan.Walks

/-!
# What the analyses of a graph find out

Two questions are asked about the edges of a graph. Over the edges that are read forward: is there
an order in which every operator comes after its producers? Over the edges of any kind: which
operators lead back to themselves? The answers are given by walks; here they are compared with what
they mean.

An order exists exactly when no operator precedes itself (`Graph.Acyclic`). One half is a count:
without a closed walk an operator is preceded by strictly more operators than any one that it
reads, so these counts rise along the edges (`Graph.Acyclic.exists_rank`), and with rising ranks
the walk leaves the operators in order. The other half reads the ranks off an order.
-/

namespace QuadAlgebra

namespace Graph

variable {γ : Type} {g : Graph γ}

/-- An edge that is read forward, between two operators of the graph. -/
def Precedes (g : Graph γ) : OperatorId → OperatorId → Prop := Walk.Step g.forward

/-- No operator reaches itself over edges that are read forward. -/
def Acyclic (g : Graph γ) : Prop := ∀ id, ¬ Relation.TransGen g.Precedes id id

theorem precedes_iff {s t : OperatorId} : g.Precedes s t ↔
    g.contains t = true ∧ ∃ e ∈ g.succeeding s, e.target = t ∧ e.feedback = false :=
  mem_forward

theorem mem_ids_of_precedes {s t : OperatorId} (h : g.Precedes s t) : s ∈ g.ids := by
  obtain ⟨-, e, he, -⟩ := precedes_iff.1 h
  exact mem_ids.2 (contains_of_mem_succeeding he)

/-! ## Ranks -/

open Classical in
/-- How many operators precede an operator, directly or not. -/
noncomputable def precedence (g : Graph γ) (id : OperatorId) : Nat :=
  (g.ids.toFinset.filter fun s => Relation.TransGen g.Precedes s id).card

open Classical in
/-- Without closed walks, more operators precede a consumer than precede its producer: the producer
is among them. -/
theorem Acyclic.precedence_lt (h : g.Acyclic) {s t : OperatorId} (hst : g.Precedes s t) :
    g.precedence s < g.precedence t := by
  refine Finset.card_lt_card (Finset.ssubset_iff_subset_ne.2 ⟨fun x hx => ?_, fun heq => ?_⟩)
  · obtain ⟨hx, hxs⟩ := Finset.mem_filter.1 hx
    exact Finset.mem_filter.2 ⟨hx, hxs.tail hst⟩
  · have hs : s ∈ g.ids.toFinset.filter fun x => Relation.TransGen g.Precedes x t :=
      Finset.mem_filter.2 ⟨List.mem_toFinset.2 (mem_ids_of_precedes hst), .single hst⟩
    rw [← heq] at hs
    exact h s (Finset.mem_filter.1 hs).2

theorem Acyclic.exists_rank (h : g.Acyclic) :
    ∃ rank : OperatorId → Nat, ∀ x, ∀ y ∈ g.forward x, rank x < rank y :=
  ⟨g.precedence, fun _ _ hy => h.precedence_lt hy⟩

/-- An order in which every operator comes after its producers leaves no closed walk. -/
theorem IsTopological.acyclic {order : List OperatorId} (h : g.IsTopological order) :
    g.Acyclic := by
  obtain ⟨rank, hrank⟩ := h.exists_rank
  have hwalk : ∀ x y, Relation.TransGen g.Precedes x y → rank x < rank y := by
    intro x y hxy
    induction hxy with
    | single hstep => exact hrank x (mem_ids_of_precedes hstep) _ hstep
    | @tail y z _ hstep ih =>
        exact Nat.lt_trans ih (hrank y (mem_ids_of_precedes hstep) z hstep)
  exact fun id hid => Nat.lt_irrefl _ (hwalk id id hid)

/-- Where no operator precedes itself, a walk that starts at all operators, in whatever order,
leaves them in topological order. -/
theorem Acyclic.isTopological_walkFrom (h : g.Acyclic) {starts : List OperatorId}
    (hstarts : ∀ id, id ∈ starts ↔ id ∈ g.ids) :
    g.IsTopological (g.walkFrom g.forward starts).left := by
  have hsub : ∀ id ∈ starts, id ∈ g.ids := fun id hid => (hstarts id).1 hid
  obtain ⟨rank, hrank⟩ := h.exists_rank
  have hnodup := (walkFrom_forward hsub).1.sound.nodup
  have hord : Walk.Ordered g.forward (g.walkFrom g.forward starts).left :=
    Walk.foldl_visit_ordered g.ids g.forward_subset hrank (Nat.lt_succ_of_le g.length_ids_le) hsub
  refine ⟨hnodup, fun id => mem_left_walkFrom hstarts, fun before id after he s hs hid => ?_⟩
  have hmem : s ∈ before ++ id :: after := he ▸ (mem_left_walkFrom hstarts).2 hs
  refine (List.mem_append.1 hmem).resolve_right fun hlate => ?_
  rcases List.mem_cons.1 hlate with rfl | hafter
  · exact h s (.single hid)
  · -- the consumer stands after its producer, thus twice
    obtain ⟨l₁, l₂, rfl⟩ := List.append_of_mem hafter
    have hagain : id ∈ l₂ := hord (before ++ id :: l₁) s l₂ (by simp [he]) id hid
    rw [he] at hnodup
    have htail := (List.nodup_cons.1 (List.nodup_append.1 hnodup).2.1).1
    exact htail (List.mem_append_right _ (List.mem_cons_of_mem _ hagain))

theorem exists_topologicalOrder_iff : (∃ order, g.topologicalOrder = .ok order) ↔ g.Acyclic := by
  constructor
  · rintro ⟨order, horder⟩
    exact (topologicalOrder_spec horder).acyclic
  · intro h
    obtain ⟨rank, hrank⟩ := h.exists_rank
    exact topologicalOrder_of_rank hrank

theorem detectCycles_eq_ok_iff : g.detectCycles = .ok () ↔ g.Acyclic := by
  rw [← exists_topologicalOrder_iff, detectCycles]
  cases g.topologicalOrder with
  | error e => simp [bind, Except.bind]
  | ok order => simp [bind, Except.bind, pure, Except.pure]

theorem pairwise_loopMembers (g : Graph γ) : g.loopMembers.Pairwise (· < ·) :=
  (List.pairwise_lt_range.filter _).filter _

/-- Both analyses are right about every graph. There is a topological order if and only if no
operator reaches itself over forward edges; the order that is reported is one, and if none is
reported then there is none. The members of loops, each listed once, are the operators of the graph
that reach themselves over edges of any kind. -/
theorem structural_analysis (g : Graph γ) :
    ((∃ order, g.topologicalOrder = .ok order ∧ g.IsTopological order) ↔ g.Acyclic) ∧
      ((∃ e, g.topologicalOrder = .error e) ↔ ¬ g.Acyclic) ∧
      (g.detectCycles = .ok () ↔ g.Acyclic) ∧
      g.loopMembers.Pairwise (· < ·) ∧
      ∀ id, id ∈ g.loopMembers ↔ g.contains id = true ∧ g.OnLoop id := by
  refine ⟨?_, ?_, detectCycles_eq_ok_iff, g.pairwise_loopMembers, fun id => ?_⟩
  · rw [← exists_topologicalOrder_iff]
    exact exists_congr fun order => and_iff_left_of_imp topologicalOrder_spec
  · rw [← exists_topologicalOrder_iff]
    cases g.topologicalOrder <;> simp
  · rw [mem_loopMembers_iff, mem_ids]

end Graph

end QuadAlgebra
