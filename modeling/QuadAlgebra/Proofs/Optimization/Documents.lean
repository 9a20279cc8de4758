import QuadAlgebra.Proofs.Planning.Plain
import QuadAlgebra.Proofs.Typing.Documents

/-!
# Optimization of queries and updates ends

The plans of queries and updates are plain, so whatever rules are allowed, there is a number of
passes within which the optimization of each of them ends, nested plans included, and after which
there is nothing left to do (`Document.optimize_ends`).
-/

namespace QuadAlgebra

variable {p : Planner} {doc : Document} {d d' : Draft} {plans : List Prepared}

theorem OptimizerConfig.mem_catalogue {γ : Type} {c : OptimizerConfig}
    {provesEmpty : IndexScan → Bool} {rule : PlanRule γ} (h : rule ∈ c.rules provesEmpty) :
    rule ∈ PlanRule.catalogue provesEmpty := List.mem_of_mem_filter h

/-- All plans of a query or an update are plain. -/
theorem Document.prepare_plain (hplanner : p.inRules = false) (hdoc : ∀ r, doc ≠ .rules r)
    (h : (doc.prepare p).runOn d = (.ok plans, d')) : ∀ prepared ∈ plans, prepared.plan.Plain :=
  Document.ends_prepare_of (fun q _ _ _ _ h => q.prepare_plain hplanner h)
    (fun _ _ op _ _ _ h => op.prepare_plain hplanner h) (fun r hr => absurd hr (hdoc r)) plans d' h

/-- Whatever rules are allowed, the optimization of a query or an update ends within some number of
passes: it then succeeds, with plans to which no rule applies. A higher limit changes nothing. -/
theorem Document.optimize_ends (hplanner : p.inRules = false) (hdoc : ∀ r, doc ≠ .rules r)
    (h : (doc.prepare p).runOn d = (.ok plans, d')) (c : OptimizerConfig) :
    ∃ n, ∀ prepared ∈ plans, ∃ o : Optimized, o.plan.Quiet (c.rules p.scans.provesEmpty) ∧
      ∀ limit ≥ n, prepared.plan.optimize (c.rules p.scans.provesEmpty) limit = .ok o := by
  refine exists_common_bound (fun prepared n m hnm ⟨o, hquiet, ho⟩ =>
    ⟨o, hquiet, fun limit hm => ho limit (hnm.trans hm)⟩) fun prepared hprepared => ?_
  exact (Document.prepare_plain hplanner hdoc h prepared hprepared).exists_optimize
    fun rule => OptimizerConfig.mem_catalogue

/-- All that has a name and is not known to be listed, with a mail address if there is one. -/
def unlisted : Document :=
  .query (.selectAll ⟨[.triple ⟨.var ⟨"x"⟩, .term (.iri "name"), .var ⟨"n"⟩⟩,
    .optional ⟨[.triple ⟨.var ⟨"x"⟩, .term (.iri "mail"), .var ⟨"m"⟩⟩]⟩,
    .filter (.existence false
      ⟨[.triple ⟨.var ⟨"list"⟩, .term (.iri "lists"), .var ⟨"x"⟩⟩]⟩)]⟩)

theorem optimize_ends_unlisted : ∃ prepared d',
    (unlisted.prepare (.ofStore .empty)).runOn .empty = (.ok [prepared], d') ∧
    ∃ n, ∀ q ∈ [prepared], ∃ o : Optimized,
      o.plan.Quiet
        (OptimizerConfig.standard.rules (ScanFactory.ofStore "memory" .empty).provesEmpty)
        ∧ ∀ limit ≥ n, q.plan.optimize (OptimizerConfig.standard.rules
          (ScanFactory.ofStore "memory" .empty).provesEmpty) limit = .ok o := by
  have hone : ((unlisted.prepare (.ofStore .empty)).runOn .empty).1.map List.length = .ok 1 := by
    decide +kernel
  cases hok : ((unlisted.prepare (.ofStore .empty)).runOn .empty).1 with
  | error e => rw [hok] at hone; cases hone
  | ok plans =>
      rw [hok] at hone
      obtain ⟨prepared, rfl⟩ := List.length_eq_one_iff.1 (Except.ok.inj hone)
      refine ⟨prepared, _, Prod.ext hok rfl, ?_⟩
      exact Document.optimize_ends rfl (fun r h => by cases h) (Prod.ext hok rfl)
        OptimizerConfig.standard

end QuadAlgebra
