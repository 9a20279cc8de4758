import QuadAlgebra.Proofs.Optimization.Steps
import QuadAlgebra.Proofs.Variables.Bounds

/-!
# Fixpoints of rules

Rules are applied until a pass changes nothing. Applied to the graph that they have made, the same
rules change nothing in their first pass and leave the graph as it is, with its variable sets
(`Graph.applyRules_again`): the index that is made for the second run is the one that the first run
ended with, and variable sets that have been computed once are computed again from the same edges.
-/

namespace QuadAlgebra

/-! ## Variable sets that are computed twice -/

namespace Graph

variable {γ : Type} {g g' : Graph γ}

/-- The graph with these bounds stored as variable sets, later ones over earlier ones. -/
def store (g : Graph γ) (values : List (OperatorId × VarBounds)) : Graph γ :=
  values.foldl (fun h v => h.mapNode v.1 fun n =>
    { n with certain := v.2.certain, possible := v.2.possible }) g

theorem node?_store_eq (values : List (OperatorId × VarBounds)) (id : OperatorId) :
    (g.store values).node? id = (g.node? id).map fun n =>
      match values.reverse.lookup id with
      | some b => { n with certain := b.certain, possible := b.possible }
      | none => n := by
  induction values using List.reverseRecOn with
  | nil =>
      change g.node? id = _
      cases g.node? id <;> rfl
  | append_singleton values v ih =>
      obtain ⟨k, b⟩ := v
      unfold store at ih ⊢
      rw [List.foldl_append, List.foldl_cons, List.foldl_nil, node?_mapNode, ih,
        List.reverse_append, List.reverse_singleton, List.singleton_append, List.lookup_cons]
      by_cases hk : id = k
      · subst hk
        cases g.node? id with
        | none => simp
        | some n => cases values.reverse.lookup id <;> simp
      · rw [if_neg hk, beq_eq_false_iff_ne.2 hk]

theorem length_store (values : List (OperatorId × VarBounds)) :
    (g.store values).slots.length = g.slots.length := by
  unfold store
  induction values generalizing g with
  | nil => rfl
  | cons v rest ih => rw [List.foldl_cons, ih, length_mapNode]

theorem store_store (values : List (OperatorId × VarBounds)) :
    (g.store values).store values = g.store values := by
  refine ext_node? (by simp only [length_store]) fun id => ?_
  simp only [node?_store_eq]
  cases g.node? id with
  | none => rfl
  | some n => cases values.reverse.lookup id <;> rfl

/-- Bounds depend on operators and edges only. -/
theorem SameEdges.bounds (h : g.SameEdges g') : g'.bounds = g.bounds := by
  simp only [Graph.bounds, propagate, h.topologicalOrder, h.inputs, h.operator?]

theorem updateVariables_again (h : updateVariables.runOn g = (.ok (), g')) :
    updateVariables.runOn g' = (.ok (), g') := by
  obtain ⟨-, hsame⟩ := updateVariables_eq_ok h
  have hrun {f : Graph γ} {values : List (OperatorId × VarBounds)} (hf : f.bounds = .ok values) :
      updateVariables.runOn f = (.ok (), f.store values) := by
    rw [updateVariables, Edit.runOn_bind, Edit.runOn_get]
    simp only [hf]
    rfl
  cases hbounds : g.bounds with
  | error e =>
      rw [updateVariables, Edit.runOn_bind, Edit.runOn_get] at h
      simp only [hbounds] at h
      cases h
  | ok values =>
      obtain rfl : g.store values = g' := congrArg Prod.snd ((hrun hbounds).symm.trans h)
      rw [hrun (hsame.bounds.trans hbounds), store_store]

end Graph

/-! ## Passes that change nothing -/

namespace Reshape

variable {γ : Type} {w : Workspace γ} {rules : List (PlanRule γ)}

/-- The variable sets of the graph are those that would be computed. -/
def Settled (w : Workspace γ) : Prop := refresh.runOn w = (.ok (), w)

theorem Settled.updateVariables (h : Settled w) :
    Graph.updateVariables.runOn w.graph = (.ok (), w.graph) := by
  unfold Settled refresh onGraph at h
  rw [Edit.runOn_within] at h
  obtain ⟨hok, hsame⟩ := Prod.mk.inj h
  exact Prod.ext hok (congrArg Workspace.graph hsame)

theorem ends_refresh_settled : (refresh : Reshape γ Unit).Ends w fun _ w' => Settled w' := by
  unfold Settled refresh onGraph
  refine Edit.ends_within.2 fun _ g hrun => ?_
  dsimp only
  rw [Edit.runOn_within, Graph.updateVariables_again hrun]

theorem tryAt_keeps_settled (rule : PlanRule γ) (id : OperatorId) :
    (tryAt rule id).Keeps Settled := by
  refine Edit.keeps_get.bind fun _ => Edit.keeps_ite Edit.keeps_pure ?_
  split
  · exact Edit.keeps_pure
  · refine fun w _ => Edit.ends_bind.2 fun _ _ _ => ?_
    exact ends_refresh_settled.bind fun _ _ h => Edit.ends_pure.2 h

theorem quiet_tryAt (rule : PlanRule γ) (id : OperatorId) :
    (tryAt rule id).Ends w fun applied w' => applied = [] → w' = w := by
  unfold tryAt
  refine Edit.ends_bind.2 (Edit.ends_get.2 ?_)
  dsimp only
  split
  · exact Edit.ends_pure.2 fun _ => rfl
  · split
    · exact Edit.ends_pure.2 fun _ => rfl
    · refine Edit.ends_bind.2 fun _ _ _ => Edit.ends_bind.2 fun _ _ _ => Edit.ends_pure.2 ?_
      exact fun h => absurd h (List.cons_ne_nil _ _)

theorem quiet_mapM {α β : Type} {l : List α} {f : α → Reshape γ (List β)}
    (h : ∀ a ∈ l, ∀ w, (f a).Ends w fun applied w' => applied = [] → w' = w) :
    (l.mapM f).Ends w fun applied w' => applied.flatten = [] → w' = w := by
  induction l generalizing w with
  | nil =>
      rw [List.mapM_nil]
      exact Edit.ends_pure.2 fun _ => rfl
  | cons a rest ih =>
      rw [List.mapM_cons]
      refine (h a List.mem_cons_self w).bind fun first w₁ h₁ => ?_
      refine (ih fun b hb => h b (List.mem_cons_of_mem _ hb)).bind fun others w₂ h₂ => ?_
      refine Edit.ends_pure.2 fun hnil => ?_
      obtain ⟨hfirst, hothers⟩ := List.append_eq_nil_iff.1 hnil
      exact (h₂ hothers).trans (h₁ hfirst)

theorem quiet_pass : (pass rules).Ends w fun applied w' => applied = [] → w' = w := by
  refine (quiet_mapM fun rule _ w => ?_).bind fun _ _ h => Edit.ends_pure.2 h
  refine Edit.ends_bind.2 (Edit.ends_get.2 ?_)
  exact (quiet_mapM fun id _ w => quiet_tryAt rule id).bind fun _ _ h => Edit.ends_pure.2 h

/-- Passes end when one changes nothing, and then another one changes nothing either. -/
theorem ends_passes_quiet (limit left : Nat) (counts : RuleCounts) :
    (passes rules limit left counts).Ends w fun _ w' =>
      0 < left ∧ (pass rules).runOn w' = (.ok [], w') := by
  induction left generalizing w counts with
  | zero => exact Edit.ends_fault
  | succ left ih =>
      unfold passes
      refine Edit.ends_bind.2 fun applied w₁ hrun => ?_
      dsimp only
      refine Edit.ends_ite (fun hnil => Edit.ends_pure.2 ⟨Nat.succ_pos left, ?_⟩) fun _ =>
        (ih _).mono fun _ _ h => ⟨Nat.succ_pos left, h.2⟩
      obtain rfl := List.isEmpty_iff.1 hnil
      obtain rfl := quiet_pass _ _ hrun rfl
      exact hrun

theorem passes_of_quiet {limit left : Nat} {counts : RuleCounts} (hleft : 0 < left)
    (h : (pass rules).runOn w = (.ok [], w)) :
    (passes rules limit left counts).runOn w = (.ok (counts.addPass []), w) := by
  obtain ⟨left, rfl⟩ := Nat.exists_eq_succ_of_ne_zero hleft.ne'
  rw [passes, Edit.runOn_bind, h]
  rfl

/-- What a run over the rules ends with: a workspace at which a pass has nothing to do. -/
theorem ends_toFixpoint_quiet {provesEmpty : IndexScan → Bool} (hne : rules ≠ [])
    (hrules : ∀ rule ∈ rules, rule ∈ PlanRule.catalogue provesEmpty) (limit : Nat)
    (hw : w.Indexed) : (toFixpoint rules limit).Ends w fun _ w' =>
      w'.Indexed ∧ Settled w' ∧ 0 < limit ∧ (pass rules).runOn w' = (.ok [], w') := by
  have hindexed := Workspace.keptBySteps_indexed (γ := γ)
  have htry : ∀ rule ∈ rules, ∀ id, (tryAt rule id).Keeps Workspace.Indexed := fun rule hrule _ =>
    tryAt_keeps (PlanRule.catalogue_keeps hindexed provesEmpty rule (hrules rule hrule))
      hindexed.refresh
  have hpasses : (passes rules limit limit .zero).Keeps fun w => w.Indexed ∧ Settled w :=
    fun w h => ((passes_keeps htry limit limit _ w h.1).and
      (passes_keeps (fun rule _ id => tryAt_keeps_settled rule id) limit limit _ w h.2))
  unfold toFixpoint
  refine Edit.ends_ite (fun h => absurd (List.isEmpty_iff.1 h) hne) fun _ => ?_
  refine ((hindexed.refresh w hw).and ends_refresh_settled).bind fun _ w₁ h₁ => ?_
  exact ((hpasses w₁ h₁).and (ends_passes_quiet limit limit _)).mono
    fun counts w' ⟨⟨hindex, hsettled⟩, hquiet⟩ => ⟨hindex, hsettled, hquiet⟩

/-- A run over the rules leaves them nothing to do. -/
theorem ends_toFixpoint {provesEmpty : IndexScan → Bool} (hne : rules ≠ [])
    (hrules : ∀ rule ∈ rules, rule ∈ PlanRule.catalogue provesEmpty) (limit : Nat)
    (hw : w.Indexed) : (toFixpoint rules limit).Ends w fun _ w' =>
      w'.Indexed ∧ (toFixpoint rules limit).runOn w' = (.ok (RuleCounts.zero.addPass []), w') := by
  refine (ends_toFixpoint_quiet hne hrules limit hw).mono
    fun counts w' ⟨hindex, hsettled, hlimit, hquiet⟩ => ⟨hindex, ?_⟩
  rw [toFixpoint, if_neg fun h => hne (List.isEmpty_iff.1 h), Edit.runOn_bind, hsettled]
  exact passes_of_quiet hlimit hquiet

end Reshape

/-- Rules that are applied to the graph that they have made end after one pass, in which none of
them is applied, and leave the graph as it is. -/
theorem Graph.applyRules_again {γ : Type} {provesEmpty : IndexScan → Bool}
    {rules : List (PlanRule γ)} {limit : Nat} {g g' : Graph γ} {counts : RuleCounts}
    (hne : rules ≠ []) (hrules : ∀ rule ∈ rules, rule ∈ PlanRule.catalogue provesEmpty)
    (h : (applyRules rules limit).runOn g = (.ok counts, g')) :
    (applyRules rules limit).runOn g' = (.ok ⟨1, ∅⟩, g') := by
  rw [runOn_applyRules] at h
  set w' := ((Reshape.toFixpoint rules limit).runOn (.ofGraph g)).2 with hw'
  obtain ⟨hok, rfl⟩ := Prod.mk.inj h
  obtain ⟨hindexed, hagain⟩ := Reshape.ends_toFixpoint hne hrules limit
    (Workspace.indexed_ofGraph g) counts w' (Prod.ext hok hw'.symm)
  have hsame : Workspace.ofGraph w'.graph = w' := congrArg (Workspace.mk w'.graph) hindexed.symm
  rw [runOn_applyRules, hsame, hagain]
  rfl

/-- A union without inputs is removed, and then there is nothing left to do. -/
theorem Graph.applyRules_again_union :
    (applyRules [PlanRule.spliceUnion] 2).runOn
        (⟨[some (.isolated .root), some (.isolated .union)]⟩ : Graph Unit) =
      (.ok (RuleCounts.zero.addPass ["RemoveUnion"] |>.addPass []),
        ⟨[some (.isolated .root), none]⟩) ∧
    (applyRules [PlanRule.spliceUnion] 2).runOn
        (⟨[some (.isolated .root), none]⟩ : Graph Unit) =
      (.ok ⟨1, ∅⟩, ⟨[some (.isolated .root), none]⟩) := by
  refine ⟨?run, @applyRules_again _ (fun _ => false) _ _ _ _ _ (List.cons_ne_nil _ _) ?rules ?run⟩
  case run => rfl
  case rules =>
    intro rule hrule
    simp [PlanRule.catalogue, List.mem_singleton.1 hrule]

end QuadAlgebra
