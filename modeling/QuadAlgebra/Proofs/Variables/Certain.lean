import QuadAlgebra.Proofs.Semantics.Production
import QuadAlgebra.Proofs.Variables.Bounds

/-!
# Variables that are certain

In a graph without feedback edges all that is certain of an operator is bound in the solutions that
it produces, whatever operators there are and however they are connected
(`Graph.Produces.binds_certain`). Nothing like that holds of the possible variables: a scan binds
what it reads as well.
-/

namespace QuadAlgebra

namespace Graph

variable {G : Graph Plan} {src : Source} {limit : Nat} {id : OperatorId} {rows : List Row}
  {s : Solution}

/-- What is closed holds of all solutions that operators produce. -/
theorem Produces.of_closed {T : OperatorId → VarSet → Prop} (hclosed : G.Closed T)
    (h : G.Produces src limit id rows) (hs : .solution s ∈ rows) : T id s.keySet := by
  induction h generalizing s with
  | root h =>
      rw [List.mem_singleton, Row.solution.injEq] at hs
      exact hclosed _ .root _ h (.starts (hs ▸ rfl))
  | @emits id op rows read hop hforward hread hemit ih =>
      have hmade := Operator.made_of_emit nodup_deliver hemit hs
      exact hclosed id op _ hop
        (Makes.of_withNested (makes_of_made (fun i hi s hs => ih i hi hs) hmade))

/-- An operator that binds what is certain of its inputs binds what is certain of itself. -/
theorem BoundedBy.closed_certain {γ : Type} {g : Graph γ} {bounds : OperatorId → VarBounds}
    (h : g.BoundedBy bounds) (hforward : ∀ id, ∀ i ∈ g.inputs id, i.feedback = false) :
    g.Closed fun id D => ∀ v ∈ (bounds id).certain, v ∈ D := by
  intro id op D hop hmakes
  obtain ⟨operands, hbounds, hnodup, hcounts, hread⟩ := h.exists_operands hop
  rw [hbounds]
  cases hmakes with
  | starts hstarts => exact (Operator.bounds_admits_of_starts hstarts).certain
  | turns i hi E hE hturns =>
      obtain ⟨b, hb, hweakens⟩ := hcounts i hi (hforward id i hi)
      exact Operator.certain_of_turns hb (fun v hv => hE v (hweakens.certain v hv)) hturns
  | «extends» hkind i j hi hj hleft _ E F hE _ hD =>
      obtain rfl := Operator.eq_optional_of_kind hkind
      obtain ⟨b, hb, hweakens⟩ := hcounts i hi (hforward id i hi)
      refine fun v hv => hD ▸ OrdSet.mem_union.2 (.inl (hE v (hweakens.certain v ?_)))
      change v ∈ ((operands.lookup 0).getD .none).certain at hv
      rwa [← hleft, hb] at hv
  | joins hkind part hpart hD =>
      obtain rfl := Operator.eq_join_of_kind hkind
      refine Operator.certain_of_joins (show ∀ o ∈ operands, ∀ v ∈ o.2.certain, v ∈ part o.1 from
        fun o ho v hv => ?_) fun v => (hD v).trans ?_
      · obtain ⟨i, hi, hk⟩ := hread o ho
        obtain ⟨j, hj, hoperand, hT⟩ := hpart i hi
        obtain ⟨b, hb, hweakens⟩ := hcounts j hj (hforward id j hj)
        have ho' := lookup_of_mem_of_nodup hnodup (show (o.1, o.2) ∈ operands from ho)
        rw [hoperand, hk, ho'] at hb
        obtain rfl := Option.some.inj hb
        exact hk ▸ hT v (hweakens.certain v hv)
      · constructor
        · rintro ⟨i, hi, hv⟩
          obtain ⟨b, hb, -⟩ := hcounts i hi (hforward id i hi)
          exact ⟨(i.operand, b), lookup_mem hb, hv⟩
        · rintro ⟨o, ho, hv⟩
          obtain ⟨i, hi, hk⟩ := hread o ho
          exact ⟨i, hi, hk ▸ hv⟩

/-- Where the variable sets have been computed, all that is certain is bound. -/
theorem Produces.binds_certain (hvars : updateVariables.runOn G = (.ok (), G)) (hlinked : G.Linked)
    (hforward : G.Forward) (h : G.Produces src limit id rows) (hs : .solution s ∈ rows)
    {n : Node Plan} (hn : G.node? id = some n) : ∀ v ∈ n.certain, v ∈ s.keySet := by
  obtain ⟨bounds, hbounded, hnode⟩ := updateVariables_bounds hvars
  rw [(hnode id n hn).1]
  exact h.of_closed (hbounded.closed_certain fun id => hforward.inputs hlinked) hs

end Graph

end QuadAlgebra
