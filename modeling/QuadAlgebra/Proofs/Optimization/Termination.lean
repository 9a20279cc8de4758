import QuadAlgebra.Proofs.Optimization.Disabled
import QuadAlgebra.Proofs.Optimization.Fixpoints
import QuadAlgebra.Proofs.Optimization.Weights

/-!
# Optimization comes to an end

Rules make one reduction after the other in a graph without heads and matchers, and each makes the
graph lighter (`Graph.Lighter`). So there is a pass that changes nothing, and where it comes does
not depend on the limit on passes (`Reshape.exists_toFixpoint`). That holds of the nested plans of a
plan as well, which are optimized first (`Plan.Plain.exists_optimize`).
-/

namespace QuadAlgebra

/-! ## Edits that descend -/

namespace Edit

variable {σ α β ω : Type} {r : ω → ω → Prop} {P : ω → σ → Prop}

/-- The edit succeeds. It has an outcome that is not empty only if it makes something smaller. -/
def Descends (r : ω → ω → Prop) (P : ω → σ → Prop) (edit : Edit σ (List β)) : Prop :=
  ∀ a s, P a s → edit.Runs s fun out s' => out = [] ∧ P a s' ∨ ∃ b, r b a ∧ P b s'

theorem descends_mapM [IsTrans ω r] {l : List α} {f : α → Edit σ (List β)}
    (h : ∀ x ∈ l, (f x).Descends r P) : (do return (← l.mapM f).flatten).Descends r P := by
  induction l with
  | nil =>
      intro a s hs
      rw [List.mapM_nil]
      exact runs_pure.2 (.inl ⟨rfl, hs⟩)
  | cons x rest ih =>
      have ih := ih fun y hy => h y (List.mem_cons_of_mem _ hy)
      intro a s hs
      rw [List.mapM_cons, runs_bind, runs_bind]
      refine (h x List.mem_cons_self a s hs).mono fun out s₁ h₁ => ?_
      have hrest (b : ω) (hb : P b s₁) := runs_bind.1 (ih b s₁ hb)
      rcases h₁ with ⟨rfl, h₁⟩ | ⟨b, hb, h₁⟩
      · refine (hrest a h₁).bind fun outs s₂ h₂ => runs_pure.2 (runs_pure.2 ?_)
        rw [runs_pure] at h₂
        exact h₂
      · refine (hrest b h₁).bind fun outs s₂ h₂ => runs_pure.2 (runs_pure.2 (.inr ?_))
        rcases runs_pure.1 h₂ with ⟨-, h₂⟩ | ⟨c, hc, h₂⟩
        · exact ⟨b, hb, h₂⟩
        · exact ⟨c, IsTrans.trans _ _ _ hc hb, h₂⟩

end Edit

/-! ## Plain graphs -/

namespace Graph

variable {γ : Type} {g g' : Graph γ} {provesEmpty : IndexScan → Bool} {good : γ → Prop}

/-- The graph has no heads and matchers, and what is nested in its operators has a property. -/
def Plain (good : γ → Prop) (g : Graph γ) : Prop :=
  ∀ id op, g.operator? id = some op → op.kind ∉ ruleKinds ∧ ∀ e ∈ op.nested, good e.2

/-- Operators come from the graph before the reduction, or are of one of four kinds and have nothing
nested. -/
theorem Reduction.operators (hreduction : g.Reduction provesEmpty g') {x : OperatorId}
    {op : Operator γ} (hop : g'.operator? x = some op) : (∃ y, g.operator? y = some op) ∨
      op.kind ∈ [.scan, .ruleFilter, .indexDistinct] ∧ op.nested = [] := by
  have hcopies {size n : Nat} {copied : Operator γ} {u : OperatorId}
      (hu : g.operator? u = some copied)
      (hop : (if x = u then none else withCopies g.operator? size n copied x) = some op) :
      ∃ y, g.operator? y = some op := by
    split at hop
    · cases hop
    · unfold withCopies at hop
      split at hop
      · exact ⟨u, hop ▸ hu⟩
      · exact ⟨x, hop⟩
  cases hreduction with
  | pruned u _ gone _ _ _ _ hwired =>
      rw [hwired.operator?] at hop
      exact .inl ⟨x, (remaining_eq_some.1 hop).2⟩
  | spliced u hsite hwired =>
      rw [hwired.operator?] at hop
      split at hop
      · cases hop
      · exact .inl ⟨x, hop⟩
  | merged u inputs scans scan hsite hmerge hwired =>
      rw [hwired.operator?] at hop
      split at hop
      · cases hop
      · split at hop
        · obtain rfl := Option.some.inj hop
          exact .inr ⟨by simp [Operator.kind], rfl⟩
        · exact .inl ⟨x, hop⟩
  | specialized u f equalities hu _ _ hwired =>
      rw [hwired.operator?] at hop
      split at hop
      · obtain rfl := Option.some.inj hop
        exact .inr ⟨by simp [Operator.kind], rfl⟩
      · exact .inl ⟨x, hop⟩
  | indexed u hu hwired =>
      rw [hwired.operator?] at hop
      split at hop
      · obtain rfl := Option.some.inj hop
        exact .inr ⟨by simp [Operator.kind], rfl⟩
      · exact .inl ⟨x, hop⟩
  | distributed u _ hsite hwired => exact .inl (hcopies hsite.operator (hwired.operator? x ▸ hop))
  | lowered u below _ l hsite hwired =>
      exact .inl (hcopies hsite.operator (hwired.operator? x ▸ hop))
  | renamed u r r' hsite hwired =>
      rw [hwired.operator?] at hop
      split at hop
      · cases hop
      · split at hop
        · next hmem =>
          obtain ⟨i, hi, rfl⟩ := List.mem_map.1 hmem
          obtain ⟨s, hs, -⟩ := hsite.scans i (Graph.mem_inputs.1 hi).2
          rw [hs] at hop
          obtain rfl := Option.some.inj hop
          exact .inr ⟨by simp [Operator.renamedScan, Operator.kind], rfl⟩
        · exact .inl ⟨x, hop⟩

theorem Reduction.plain (h : g.Plain good) (hreduction : g.Reduction provesEmpty g') :
    g'.Plain good := by
  intro x op hop
  rcases hreduction.operators hop with ⟨y, hy⟩ | ⟨hkind, hnested⟩
  · exact h y op hy
  · refine ⟨fun hrule => ?_, by simp [hnested]⟩
    simp only [List.mem_cons, List.not_mem_nil, or_false] at hkind
    rcases hkind with he | he | he <;> simp [he, ruleKinds] at hrule

end Graph

/-! ## Passes -/

/-- A graph that rules can make lighter: it is sane and plain, and it has this weight. -/
def Workspace.Weighs {γ : Type} (good : γ → Prop) (weight : Graph.Weight) (w : Workspace γ) :
    Prop :=
  w.graph.Sane ∧ w.graph.Plain good ∧
    ∃ height, Slopes w.graph.operator? w.graph.Reads height ∧ w.graph.weight height = weight

namespace Reshape

open Edit

variable {γ : Type} {w : Workspace γ} {good : γ → Prop} {provesEmpty : IndexScan → Bool}
  {rules : List (PlanRule γ)} {weight : Graph.Weight}

/-- Chains of reductions descend like single ones. -/
abbrev Lighter := Relation.TransGen Graph.Lighter

theorem weighs_of_wired {g : Graph γ} (h : (⟨g, w.index⟩ : Workspace γ).Weighs good weight)
    (hwired : w.graph.Wired g.slots.length g.operator? g.Reads) : w.Weighs good weight := by
  obtain ⟨hsane, hplain, height, hslopes, rfl⟩ := h
  refine ⟨.of_wired hwired hsane.root hsane.ranks, fun id op hop => hplain id op ?_, height,
    hslopes.of_wired hwired, ?_⟩
  · exact (hwired.operator? id).symm.trans hop
  · have hlive : w.graph.live = g.live := by
      ext x
      rw [Graph.mem_live, Graph.mem_live, hwired.operator?]
    have hhaving (kinds : List Kind) : w.graph.having kinds = g.having kinds := by
      ext x
      rw [Graph.mem_having, Graph.mem_having, hwired.operator?]
    rw [Graph.weight, Graph.weight, hlive, hhaving, hhaving]

theorem runs_tryAt {rule : PlanRule γ} {id : OperatorId}
    (hrule : rule ∈ PlanRule.catalogue provesEmpty) :
    (tryAt rule id).Descends Lighter (Workspace.Weighs good) := by
  intro weight w hw
  have hstart := hw
  obtain ⟨hsane, hplain, height, hslopes, rfl⟩ := hw
  unfold tryAt
  refine runs_bind.2 (runs_get (runs_ite (fun _ => runs_pure.2 (.inl ⟨rfl, hstart⟩))
    fun hkind => ?_))
  have hkind : w.graph.kind? id = some rule.start := by simpa using hkind
  split
  · exact runs_pure.2 (.inl ⟨rfl, hstart⟩)
  · next m hm =>
    have hrules : rule.start ∉ Graph.ruleKinds := by
      obtain ⟨op, hop, he⟩ := PlanRule.exists_operator hkind
      exact he ▸ (hplain id op hop).1
    refine (PlanRule.catalogue_reduces provesEmpty rule hrule hrules w id m hsane.orderly
      hkind hm).bind
      fun _ w₁ hreduction => ?_
    have hsane₁ := hreduction.sane hsane
    obtain ⟨height', hslopes', hlighter⟩ := hreduction.exists_lighter hsane hslopes
    refine (runs_refresh hsane₁.wired hsane₁.ascends).bind fun _ w₂ h₂ => runs_pure.2 (.inr ?_)
    exact ⟨_, .single hlighter, weighs_of_wired
      ⟨hsane₁, hreduction.plain hplain, height', hslopes', rfl⟩ h₂⟩

theorem runs_pass (hrules : ∀ rule ∈ rules, rule ∈ PlanRule.catalogue provesEmpty) :
    (pass rules).Descends Lighter (Workspace.Weighs (γ := γ) good) := by
  refine descends_mapM fun rule hrule weight w hw => ?_
  refine runs_bind.2 (runs_get ?_)
  exact descends_mapM (fun id _ => runs_tryAt (hrules rule hrule)) weight w hw

/-- After some number of passes nothing is left to do, whatever the limit. -/
theorem exists_passes (hrules : ∀ rule ∈ rules, rule ∈ PlanRule.catalogue provesEmpty)
    (hw : w.Weighs good weight) (counts : RuleCounts) : ∃ n counts' w',
      (∃ weight', w'.Weighs good weight') ∧
      ∀ limit left, n ≤ left → (passes rules limit left counts).runOn w = (.ok counts', w') := by
  induction weight using Graph.wellFounded_lighter.transGen.induction generalizing w counts with
  | _ weight ih =>
  obtain ⟨applied, w₁, hrun, hpass⟩ := runs_pass hrules weight w hw
  have hstep {limit left : Nat} (hleft : 0 < left) : (passes rules limit left counts).runOn w =
      (if applied.isEmpty then pure (counts.addPass applied)
        else passes rules limit (left - 1) (counts.addPass applied) : Reshape γ _).runOn w₁ := by
    obtain ⟨left, rfl⟩ := Nat.exists_eq_succ_of_ne_zero hleft.ne'
    rw [passes, Edit.runOn_bind, hrun]
    rfl
  by_cases hnil : applied = []
  · subst hnil
    refine ⟨1, counts.addPass [], w₁, ?_, fun limit left hleft => hstep hleft⟩
    rcases hpass with ⟨-, h₁⟩ | ⟨weight', -, h₁⟩
    · exact ⟨_, h₁⟩
    · exact ⟨_, h₁⟩
  · obtain ⟨weight', hlighter, h₁⟩ := hpass.resolve_left fun h => hnil h.1
    obtain ⟨n, counts', w', hw', hpasses⟩ := ih weight' hlighter h₁ (counts.addPass applied)
    refine ⟨n + 1, counts', w', hw', fun limit left hleft => ?_⟩
    rw [hstep (Nat.lt_of_lt_of_le (Nat.succ_pos n) hleft), if_neg (by simpa using hnil)]
    exact hpasses limit (left - 1) (Nat.le_sub_one_of_lt hleft)

/-- Rules that are applied until none matches any more come to an end. -/
theorem exists_toFixpoint (hrules : ∀ rule ∈ rules, rule ∈ PlanRule.catalogue provesEmpty)
    (hw : w.Weighs good weight) : ∃ n counts w', (∃ weight', w'.Weighs good weight') ∧
      ∀ limit ≥ n, (toFixpoint rules limit).runOn w = (.ok counts, w') := by
  by_cases hnil : rules.isEmpty = true
  · refine ⟨0, .zero, w, ⟨weight, hw⟩, fun limit _ => ?_⟩
    rw [toFixpoint, if_pos hnil]
    rfl
  · obtain ⟨hsane, hplain, height, hslopes, rfl⟩ := hw
    obtain ⟨⟨⟩, w₁, hrefresh, hwired⟩ := runs_refresh hsane.wired hsane.ascends
    have hw₁ : w₁.Weighs good (w.graph.weight height) :=
      weighs_of_wired ⟨hsane, hplain, height, hslopes, rfl⟩ hwired
    obtain ⟨n, counts, w', hw', hpasses⟩ := exists_passes hrules hw₁ .zero
    refine ⟨n, counts, w', hw', fun limit hlimit => ?_⟩
    rw [toFixpoint, if_neg hnil, Edit.runOn_bind, hrefresh]
    exact hpasses limit limit hlimit

end Reshape

/-! ## Plans -/

/-- A pass of the rules over the graph applies none of them, and leaves the graph as it is. -/
def Graph.Quiet {γ : Type} (rules : List (PlanRule γ)) (g : Graph γ) : Prop :=
  (Reshape.pass rules).runOn (.ofGraph g) = (.ok [], .ofGraph g)

namespace Graph

variable {γ : Type} {g : Graph γ} {good : γ → Prop} {provesEmpty : IndexScan → Bool}

theorem Sane.exists_weighs (h : g.Sane) (hplain : g.Plain good) :
    ∃ weight, (Workspace.ofGraph g).Weighs good weight := by
  obtain ⟨rank, hrank⟩ := h.ranks
  exact ⟨_, h, hplain, rank, ⟨hrank.root, fun x i hi hf => .inl (hrank.ascends x i hi hf)⟩, rfl⟩

/-- The rules come to an end on a graph without heads and matchers, and leave nothing to do. -/
theorem exists_applyRules {rules : List (PlanRule γ)}
    (hrules : ∀ rule ∈ rules, rule ∈ PlanRule.catalogue provesEmpty) (h : g.Sane)
    (hplain : g.Plain good) : ∃ n counts g', g'.Sane ∧ g'.Plain good ∧ g'.Quiet rules ∧
      (∀ limit ≥ n, (do
        let counts ← applyRules rules limit
        updateVariables
        return counts : Edit (Graph γ) RuleCounts).runOn g = (.ok counts, g')) := by
  obtain ⟨weight, hweighs⟩ := h.exists_weighs hplain
  obtain ⟨n, counts, w', ⟨weight', hsane', hplain', height, hslopes, -⟩, hrun⟩ :=
    Reshape.exists_toFixpoint hrules hweighs
  obtain ⟨⟨⟩, g', hupdate, -⟩ := runs_updateVariables hsane'.ascends
  have hwired := wired_updateVariables hsane'.wired _ _ hupdate
  refine ⟨n, counts, g', .of_wired hwired hsane'.root hsane'.ranks, fun id op hop =>
    hplain' id op ((hwired.operator? id).symm.trans hop), ?_, fun limit hlimit => ?_⟩
  · by_cases hnil : rules = []
    · subst hnil
      rfl
    · obtain ⟨hindexed, hsettled, -, hquiet⟩ := Reshape.ends_toFixpoint_quiet hnil hrules n
        (Workspace.indexed_ofGraph g) counts w' (hrun n (Nat.le_refl n))
      obtain rfl : w'.graph = g' := congrArg Prod.snd (hsettled.updateVariables.symm.trans hupdate)
      have hsame : Workspace.ofGraph w'.graph = w' := congrArg (Workspace.mk w'.graph) hindexed.symm
      unfold Quiet
      rw [hsame]
      exact hquiet
  · rw [Edit.runOn_bind, runOn_applyRules, hrun limit hlimit]
    dsimp only
    rw [Edit.runOn_bind, hupdate]
    rfl

end Graph

namespace Graph

variable {γ δ : Type} {g : Graph γ} {f : γ → δ}

theorem linked_mapNested (h : g.Linked) (f : γ → δ) : (g.mapNested f).Linked := fun s t => by
  rw [preceding_mapNested, succeeding_mapNested]
  exact h s t

theorem Sane.mapNested (h : g.Sane) (f : γ → δ) : (g.mapNested f).Sane := by
  obtain ⟨rank, hrank⟩ := h.ranks
  refine ⟨linked_mapNested h.linked f, ?_, rank, hrank.root, fun x i hi => hrank.ascends x i ?_⟩
  · rw [operator?_mapNested, h.root]
    rfl
  · rwa [Reads, succeeding_mapNested] at hi

theorem Plain.mapNested {good : δ → Prop} (h : g.Plain fun p => good (f p)) :
    (g.mapNested f).Plain good := by
  intro id op hop
  rw [operator?_mapNested] at hop
  obtain ⟨op', hop', rfl⟩ := Option.map_eq_some_iff.1 hop
  obtain ⟨hkind, hgood⟩ := h id op' hop'
  refine ⟨by rwa [kind_withNested], fun e he => ?_⟩
  rw [Operator.nested_withNested_map] at he
  obtain ⟨e', he', rfl⟩ := List.mem_map.1 he
  exact hgood e' he'

theorem allNested_mapNested (f : γ → δ) : (g.mapNested f).allNested = g.allNested.map f := by
  rw [allNested, allNested, ids_mapNested, List.map_flatMap]
  refine List.flatMap_congr fun id _ => ?_
  rw [operator?_mapNested]
  cases g.operator? id with
  | none => rfl
  | some op =>
      simp only [Option.map_some, Operator.nested_withNested_map, List.map_map]
      rfl

theorem mem_allNested_iff {p : γ} :
    p ∈ g.allNested ↔ ∃ id op k, g.operator? id = some op ∧ (k, p) ∈ op.nested := by
  constructor
  · intro hp
    obtain ⟨id, -, hp⟩ := List.mem_flatMap.1 hp
    split at hp
    · next op hop =>
      obtain ⟨⟨k, q⟩, hq, rfl⟩ := List.mem_map.1 hp
      exact ⟨id, op, k, hop, hq⟩
    · cases hp
  · rintro ⟨id, op, k, hop, hp⟩
    exact Plan.mem_allNested hop hp

end Graph

theorem mapM_id_map_ok {α β : Type} {f : α → Except Error β} {F : α → β} {l : List α}
    (h : ∀ a ∈ l, f a = .ok (F a)) : (l.map f).mapM id = .ok (l.map F) := by
  induction l with
  | nil => rfl
  | cons a rest ih =>
      rw [List.map_cons, List.mapM_cons, ih fun b hb => h b (List.mem_cons_of_mem _ hb)]
      rw [id, h a List.mem_cons_self]
      rfl

/-- Finitely many bounds have a common one. -/
theorem exists_common_bound {α : Type} {R : α → Nat → Prop} {l : List α}
    (hmono : ∀ a n m, n ≤ m → R a n → R a m) (h : ∀ a ∈ l, ∃ n, R a n) :
    ∃ n, ∀ a ∈ l, R a n := by
  induction l with
  | nil => exact ⟨0, fun _ ha => absurd ha List.not_mem_nil⟩
  | cons a rest ih =>
      obtain ⟨n, hn⟩ := h a List.mem_cons_self
      obtain ⟨m, hm⟩ := ih fun b hb => h b (List.mem_cons_of_mem _ hb)
      refine ⟨max n m, fun b hb => ?_⟩
      rcases List.mem_cons.1 hb with rfl | hb
      · exact hmono b n _ (Nat.le_max_left n m) hn
      · exact hmono b m _ (Nat.le_max_right n m) (hm b hb)

namespace Plan

/-- The graph of the plan is sane and without heads and matchers, and so are the plans nested in
it. -/
inductive Plain : Plan → Prop
  | intro (p : Plan) (sane : p.graph.Sane) (plain : p.graph.Plain fun _ => True)
      (nested : ∀ id op, p.graph.operator? id = some op → ∀ e ∈ op.nested, Plain e.2) : Plain p

/-- A pass over the plan, or over a plan nested in it, applies no rule. -/
inductive Quiet (rules : List (PlanRule Plan)) : Plan → Prop
  | intro (p : Plan) (quiet : p.graph.Quiet rules)
      (nested : ∀ id op, p.graph.operator? id = some op → ∀ e ∈ op.nested, Quiet rules e.2) :
      Quiet rules p

variable {provesEmpty : IndexScan → Bool} {rules : List (PlanRule Plan)} {p : Plan}

/-- The optimization of a plain plan comes to an end with nothing left to do. What it results in
does not depend on the limit on passes. -/
theorem Plain.exists_optimize (hrules : ∀ rule ∈ rules, rule ∈ PlanRule.catalogue provesEmpty)
    (h : p.Plain) : ∃ n o, o.plan.Quiet rules ∧ ∀ limit ≥ n, p.optimize rules limit = .ok o := by
  induction h with
  | intro p sane plain nested ih =>
      -- a bound for all nested plans, and what they become
      obtain ⟨n, hn⟩ : ∃ n, ∀ q ∈ p.graph.allNested, ∃ o : Optimized, o.plan.Quiet rules ∧
          ∀ limit ≥ n, q.optimize rules limit = .ok o := by
        refine exists_common_bound (fun q n m hnm h => ?_) fun q hq => ?_
        · obtain ⟨o, hquiet, ho⟩ := h
          exact ⟨o, hquiet, fun limit hm => ho limit (hnm.trans hm)⟩
        · obtain ⟨id, op, k, hop, hq⟩ := Graph.mem_allNested_iff.1 hq
          exact ih id op hop (k, q) hq
      have : Nonempty Optimized := ⟨⟨default, .zero⟩⟩
      choose! F hquiet hF using hn
      have hmem {id : OperatorId} {op : Operator Plan} (hop : p.graph.operator? id = some op)
          {e : Nat × Plan} (he : e ∈ op.nested) : e.2 ∈ p.graph.allNested := mem_allNested hop he
      have hplain : (p.graph.mapNested fun q => (F q).plan).Plain (Quiet rules) :=
        Graph.Plain.mapNested fun id op hop =>
          ⟨(plain id op hop).1, fun e he => hquiet e.2 (hmem hop he)⟩
      obtain ⟨m, counts, g', -, hplain', hdone, hrun⟩ :=
        Graph.exists_applyRules hrules (sane.mapNested fun q => (F q).plan) hplain
      refine ⟨max n m, ⟨⟨g'⟩, ((p.graph.allNested.map F).map Optimized.counts).foldl (· + ·) .zero +
        counts⟩, .intro _ hdone fun id op hop e he => (hplain' id op hop).2 e he,
        fun limit hlimit => ?_⟩
      have hnested : ∀ q ∈ p.graph.allNested, q.fold (Graph.optimize rules limit) = .ok (F q) :=
        fun q hq => hF q hq limit ((Nat.le_max_left n m).trans hlimit)
      have hstart : (p.graph.mapNested fun q => q.fold (Graph.optimize rules limit)).mapNested
          (fun r => (r.toOption.map Optimized.plan).getD default) =
            p.graph.mapNested fun q => (F q).plan := by
        refine Graph.mapNested_mapNested fun id op hop e he => ?_
        rw [hnested e.2 (hmem hop he)]
        rfl
      rw [optimize, fold_eq, Graph.optimize, Graph.allNested_mapNested, mapM_id_map_ok hnested,
        hstart]
      have hrun := hrun limit ((Nat.le_max_right n m).trans hlimit)
      simp only [bind, Except.bind] at hrun ⊢
      rw [hrun]
      rfl

end Plan

end QuadAlgebra
