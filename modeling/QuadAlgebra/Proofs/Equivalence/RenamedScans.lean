import QuadAlgebra.Proofs.Optimization.Frames
import QuadAlgebra.Proofs.Semantics.Production

/-!
# Renamed scans

A renaming that gives no source two targets can be turned round (`PlanRule.get?_inverse`). If no
target that is not a source as well is bound by a scan, then renaming the variables of the patterns
has the effect of renaming the solutions: an item denotes a term in a renamed solution if it did so
before (`PlanRule.unify_renamed`), and so on for patterns and scans (`PlanRule.scan_renamed`). The
rule that renames scans below a renaming may rely on that (`PlanRule.renameUnderScans_same_rows`).
-/

namespace QuadAlgebra

namespace PlanRule

variable {r : Renaming} {r' : VarMap} {s : Solution} {u v : Variable}

/-- The inverse leads from sources to their targets. -/
theorem get?_inverse (h : inverse r = some r') : r'.get? u = some v ↔ r.get? v = some u := by
  unfold inverse at h
  split at h
  · next hsize =>
    obtain rfl := Option.some.inj h
    have hsources : (r.entries.map fun e => (e.2, e.1)).map Prod.fst = r.values := by
      rw [List.map_map]
      rfl
    rw [OrdMap.get?_ofList (hsources ▸ OrdSet.nodup_of_size_ofList hsize), ← OrdMap.mem_entries_iff,
      List.mem_map]
    constructor
    · rintro ⟨e, he, hpair⟩
      obtain ⟨rfl, rfl⟩ := Prod.mk.inj hpair
      exact he
    · exact fun he => ⟨_, he, rfl⟩
  · cases h

theorem mem_values_iff : u ∈ r.values ↔ ∃ v, r.get? v = some u := by
  rw [OrdMap.values, List.mem_map]
  constructor
  · rintro ⟨e, he, rfl⟩
    exact ⟨e.1, OrdMap.mem_entries_iff.1 he⟩
  · rintro ⟨v, hv⟩
    exact ⟨(v, u), OrdMap.mem_entries_iff.2 hv, rfl⟩

/-- The name of a variable after the renaming. -/
def renamedVar (r' : VarMap) (u : Variable) : Variable := (r'.get? u).getD u

theorem renamedVar_of_some (hv : r'.get? u = some v) : renamedVar r' u = v := by
  rw [renamedVar, hv, Option.getD_some]

theorem renamedVar_of_none (hv : r'.get? u = none) : renamedVar r' u = u := by
  rw [renamedVar, hv, Option.getD_none]

/-- A variable that does not get in the way of the renaming: if it is a target it is a source,
too. -/
def Yields (r : Renaming) (u : Variable) : Prop := ∀ w, r.get? u = some w → u ∈ r.values

theorem yields_of_bindsTarget {scan : IndexScan} (h : bindsTarget r scan = false)
    (hu : u ∈ scan.vars) : Yields r u := fun w hw => by
  have hkey : u ∈ r.keys := OrdMap.mem_keys_iff.2 ⟨w, hw⟩
  simpa [hu] using List.any_eq_false.1 h u hkey

section Inverse

variable (h : inverse r = some r')

include h

/-- A variable that yields to the renaming has a new name if and only if it is a source. -/
theorem renamedVar_cases (hu : Yields r u) :
    (r.get? (renamedVar r' u) = some u) ∨
      (renamedVar r' u = u ∧ r.get? u = none ∧ u ∉ r.values) := by
  cases hr : r'.get? u with
  | some v => exact .inl (renamedVar_of_some hr ▸ (get?_inverse h).1 hr)
  | none =>
      have hsource : u ∉ r.values := fun hmem => by
        obtain ⟨v, hv⟩ := mem_values_iff.1 hmem
        rw [(get?_inverse h).2 hv] at hr
        cases hr
      refine .inr ⟨renamedVar_of_none hr, ?_, hsource⟩
      cases htarget : r.get? u with
      | none => rfl
      | some w => exact absurd (hu w htarget) hsource

/-- What a variable had is found under its new name. -/
theorem get?_renamedVar (hu : Yields r u) (s : Solution) :
    (r.solution s).get? (renamedVar r' u) = s.get? u := by
  rw [Renaming.get?_solution]
  rcases renamedVar_cases h hu with htarget | ⟨hsame, hnone, hsource⟩
  · rw [htarget, Option.elim_some]
  · rw [hsame, hnone]
    exact if_neg hsource

theorem solution_insert (hu : Yields r u) (s : Solution) (t : Term) :
    r.solution (s.insert u t) = (r.solution s).insert (renamedVar r' u) t := by
  refine Solution.eq_of_get? fun v => ?_
  rw [Solution.get?_insert]
  by_cases hv : v = renamedVar r' u
  · rw [if_pos hv, hv, get?_renamedVar h hu, Solution.get?_insert, if_pos rfl]
  · rw [if_neg hv, Renaming.get?_solution, Renaming.get?_solution]
    cases hr : r.get? v with
    | some w =>
        have hw : w ≠ u := by
          rintro rfl
          exact hv (renamedVar_of_some ((get?_inverse h).2 hr)).symm
        exact (Solution.get?_insert s u w t).trans (if_neg hw)
    | none =>
        rw [Option.elim_none, Option.elim_none]
        split
        · rfl
        · next hsource =>
          have hne : v ≠ u := by
            rintro rfl
            rcases renamedVar_cases h hu with htarget | ⟨hsame, -⟩
            · exact hsource (mem_values_iff.2 ⟨_, htarget⟩)
            · exact hv hsame.symm
          exact (Solution.get?_insert s u v t).trans (if_neg hne)

/-! ## Matches -/

theorem unify_renamed {i : Item} (hi : ∀ u, i = .var u → Yields r u) (s : Solution) (t : Term) :
    (r.solution s).unify (i.renamed r') t = (s.unify i t).map r.solution := by
  cases i with
  | term a =>
      simp only [Item.renamed, Solution.unify]
      split <;> rfl
  | var u =>
      have hu := hi u rfl
      change (r.solution s).unify (.var (renamedVar r' u)) t = _
      simp only [Solution.unify, get?_renamedVar h hu]
      cases s.get? u with
      | some a =>
          dsimp only
          split <;> rfl
      | none => exact congrArg some (solution_insert h hu s t).symm

theorem match?_renamed {p : TriplePattern} (hp : ∀ u ∈ p.vars, Yields r u) (t : Triple)
    (s : Solution) : (p.renamed r').match? t (r.solution s) = (p.match? t s).map r.solution := by
  have hitem (i : Item) (hi : i ∈ p.items) (u : Variable) (hu : i = .var u) : Yields r u :=
    hp u (Item.mem_vars.2 (hu ▸ hi))
  simp only [TriplePattern.match?, TriplePattern.renamed, Option.bind_eq_bind]
  rw [unify_renamed h (hitem p.subject (by simp [TriplePattern.items]))]
  cases s.unify p.subject t.subject with
  | none => rfl
  | some s =>
      simp only [Option.map_some, Option.bind_some]
      rw [unify_renamed h (hitem p.predicate (by simp [TriplePattern.items]))]
      cases s.unify p.predicate t.predicate with
      | none => rfl
      | some s => exact unify_renamed h (hitem p.object (by simp [TriplePattern.items])) s t.object

theorem matchPatterns_renamed {patterns : List TriplePattern}
    (hpatterns : ∀ p ∈ patterns, ∀ u ∈ p.vars, Yields r u) (triples : List Triple)
    (start : Solution) :
    matchPatterns (patterns.map (·.renamed r')) triples (r.solution start) =
      (matchPatterns patterns triples start).map r.solution := by
  unfold matchPatterns
  change List.foldl _ ([start].map r.solution) _ = _
  -- the rows that the patterns before have matched
  generalize [start] = rows
  induction patterns generalizing rows with
  | nil => rfl
  | cons p rest ih =>
      rw [List.map_cons, List.foldl_cons, List.foldl_cons,
        ← ih fun q hq => hpatterns q (List.mem_cons_of_mem p hq)]
      congr 1
      rw [List.flatMap_map, List.map_flatMap]
      refine List.flatMap_congr fun row _ => ?_
      rw [List.map_filterMap]
      exact List.filterMap_congr fun t _ => match?_renamed h (hpatterns p List.mem_cons_self) t row

/-- A scan with renamed variables has the renamed solutions of the scan. -/
theorem scan_renamed {scan : IndexScan} (hbinds : bindsTarget r scan = false) (src : Source) :
    src.scan (scan.renamed r') = (src.scan scan).map r.solution := by
  obtain ⟨patterns, graph, source⟩ := scan
  have hpatterns (p : TriplePattern) (hp : p ∈ patterns) (u : Variable) (hu : u ∈ p.vars) :
      Yields r u :=
    yields_of_bindsTarget hbinds (OrdSet.mem_union.2 (.inl (OrdSet.mem_unionOf.2 ⟨p, hp, hu⟩)))
  have hempty : r.solution ∅ = ∅ := by
    refine Solution.eq_of_get? fun v => ?_
    rw [Renaming.get?_solution]
    cases r.get? v <;> simp
  match graph with
  | none =>
      have hmatch := matchPatterns_renamed h hpatterns
        (src.store.defaultGraph src.dataset).toList ∅
      rwa [hempty] at hmatch
  | some (.term g) =>
      have hmatch := matchPatterns_renamed h hpatterns (src.store.triplesIn (some g)) ∅
      rw [hempty] at hmatch
      simp only [Source.scan, IndexScan.renamed, Option.map_some, Item.renamed, hmatch]
      split <;> rfl
  | some (.var v) =>
      have hv : Yields r v := yields_of_bindsTarget hbinds
        (OrdSet.mem_union.2 (.inr (Item.mem_vars.2 (by simp))))
      simp only [Source.scan, IndexScan.renamed, Option.map_some, Item.renamed, List.map_flatMap]
      refine List.flatMap_congr fun g _ => ?_
      rw [← matchPatterns_renamed h hpatterns]
      -- binding one variable is adding it to the empty solution
      refine congrArg _ ?_
      change (∅ : Solution).insert (renamedVar r' v) g = r.solution ((∅ : Solution).insert v g)
      rw [solution_insert h hv, hempty]

end Inverse

end PlanRule

/-! ## Renamings of scans in plans -/

/-- A graph in which scans have taken the place of a renaming that read them. -/
structure Graph.Rewording {γ : Type} (g g' : Graph γ) (u : OperatorId)
    (r : Renaming) (r' : VarMap) :
    Prop where
  linked : g.Linked
  root : g.operator? Graph.root = some .root
  site : g.RenameSite u r r'
  wired : g'.Wired g.slots.length (fun x => if x = u then none
      else if x ∈ (g.inputs u).map Input.source then (g.operator? x).map (Operator.renamedScan r')
        else g.operator? x)
    (splicedReads g.Reads u)

namespace Graph.Rewording

variable {γ : Type} {g g' : Graph γ} {u x : OperatorId} {r : Renaming} {r' : VarMap}
  {op : Operator γ}

theorem ne_root (h : g.Rewording g' u r r') : u ≠ Graph.root :=
  ne_root_of_kind h.root h.site.rename Kind.noConfusion

theorem exists_scan (h : g.Rewording g' u r r') (hx : x ∈ (g.inputs u).map Input.source) :
    ∃ scan, g.operator? x = some (.scan scan) ∧ PlanRule.bindsTarget r scan = false ∧ x ≠ u ∧
      g'.operator? x = some (.scan (scan.renamed r')) := by
  obtain ⟨i, hi, hsource⟩ := List.mem_map.1 hx
  obtain ⟨scan, hscan, hbinds⟩ := h.site.scans i (h.linked.mem_inputs.1 hi)
  rw [hsource] at hscan
  have hne : x ≠ u := by
    rintro rfl
    rw [h.site.rename] at hscan
    cases hscan
  refine ⟨scan, hscan, hbinds, hne, ?_⟩
  rw [h.wired.operator?, if_neg hne, if_pos hx, hscan]
  rfl

/-- Only scans have changed, and all roots are still roots. -/
theorem operator_root_iff (h : g.Rewording g' u r r') :
    g'.operator? x = some .root ↔ g.operator? x = some .root := by
  by_cases hu : x = u
  · subst hu
    rw [h.wired.operator?, if_pos rfl, h.site.rename]
    simp
  · by_cases hx : x ∈ (g.inputs u).map Input.source
    · obtain ⟨scan, hscan, -, -, hscan'⟩ := h.exists_scan hx
      rw [hscan, hscan']
      simp
    · rw [h.wired.operator?, if_neg hu, if_neg hx]

theorem unread (h : g.Rewording g' u r r')
    (hunread : ∀ x, g.operator? x = some .root → ∀ i, ¬ g.Reads x i)
    (hx : g'.operator? x = some .root) (i : Input) : ¬ g'.Reads x i := fun hi => by
  have hunread := hunread x (h.operator_root_iff.1 hx)
  rcases (h.wired.reads x i).1 hi with ⟨hi, -⟩ | ⟨_, _, -, hi, -⟩
  · exact hunread _ hi
  · exact hunread _ hi

/-- The renaming does not feed scans that read the root only. -/
theorem edgesBetween_eq_nil (h : g.Rewording g' u r r')
    (hfed : ∀ i ∈ g.inputs x, i.source = Graph.root) : g.edgesBetween u x = [] := by
  by_contra hedge
  obtain ⟨e, he, rfl⟩ := edgesBetween_ne_nil.1 hedge
  exact h.ne_root (hfed ⟨u, e.operand, e.feedback⟩ (h.linked.mem_inputs.2 he))

end Graph.Rewording

namespace PlanRule

/-- Where the variables of scans are renamed that are fed by the root, each scan keeps its edges and
produces the rows that it has produced before, renamed. If roots read nothing it has them in the end
of every evaluation. -/
theorem renameUnderScans_same_rows {w : Workspace Plan} (h : w.graph.Symmetric)
    (hroot : w.graph.operator? Graph.root = some .root) {rename : OperatorId} {r : Renaming}
    {m : Match} (hop : w.graph.operator? rename = some (.replaceVar r))
    (hm : renameUnderScans.match? w.graph rename = some m)
    (hfed : ∀ s ∈ m.all .scan, ∀ i ∈ w.graph.inputs s, i.source = Graph.root ∧ i.feedback = false) :
    (renameUnderScans.replace m).Runs w fun _ w' => ∀ s ∈ m.all .scan,
      (∃ scan, w'.graph.operator? s = some (.scan scan)) ∧ w'.graph.inputs s = w.graph.inputs s ∧
      (∀ src limit, ∃ found : List Solution,
        w.graph.Produces src limit s (found.map .solution) ∧
        w'.graph.Produces src limit s ((found.map r.solution).map .solution)) ∧
      ((∀ x, w.graph.operator? x = some .root → ∀ i, ¬ w.graph.Reads x i) → ∀ src limit a n a' n',
        (Plan.opened ⟨w.graph⟩ src limit).finalRows src limit = .ok (a, n) →
        (Plan.opened ⟨w'.graph⟩ src limit).finalRows src limit = .ok (a', n') →
        ∃ found : List Solution, a.rows s = found.map .solution ∧
          a'.rows s = (found.map r.solution).map .solution) := by
  obtain ⟨r₁, r', hsite, rfl⟩ := exists_renameSite h.linked hm
  obtain rfl : r₁ = r := Operator.replaceVar.inj (Option.some.inj (hsite.rename.symm.trans hop))
  simp only [Match.all_bindAll, Match.all_only, List.nil_append, if_true] at hfed ⊢
  obtain ⟨⟨⟩, w', hrun, hwired⟩ := renameUnderScans_runs h.linked hroot hsite
  have hsymmetric : w'.graph.Symmetric :=
    renameUnderScans_keeps Workspace.keptBySteps_symmetric _ w h _ _ hrun
  have hrewording : w.graph.Rewording w'.graph rename r₁ r' := ⟨h.linked, hroot, hsite, hwired⟩
  refine ⟨⟨⟩, w', hrun, fun s hs => ?_⟩
  replace hfed := hfed s hs
  obtain ⟨scan, hscan, hbinds, hne, hscan'⟩ := hrewording.exists_scan hs
  have hinputs : w'.graph.inputs s = w.graph.inputs s := Graph.Spares.inputs
    (renameUnderScans_spares hne (hrewording.edgesBetween_eq_nil fun i hi => (hfed i hi).1)
      _ _ _ hrun)
  have hrows (src : Source) : (List.replicate (w'.graph.inputs s).length
      (src.scan (scan.renamed r'))).flatten =
        (List.replicate (w.graph.inputs s).length (src.scan scan)).flatten.map r₁.solution := by
    rw [hinputs, scan_renamed hsite.inverse hbinds, List.map_flatten, List.map_replicate]
  have hbefore (src : Source) (limit : Nat) :=
    Graph.produces_scan src limit hroot hscan hfed
  have hafter (src : Source) (limit : Nat) :=
    Graph.produces_scan src limit (hrewording.operator_root_iff.2 hroot) hscan'
      (hinputs.symm ▸ hfed)
  simp only [hrows] at hafter
  refine ⟨⟨_, hscan'⟩, hinputs, fun src limit => ⟨_, hbefore src limit, hafter src limit⟩,
    fun hunread src limit a n a' n' ha ha' => ⟨_, (hbefore src limit).rows_eq h.linked
      (fun x hx => Graph.not_onLoop_of_reads (hunread x hx)) ha, ?_⟩⟩
  exact (hafter src limit).rows_eq hsymmetric.linked
    (fun x hx => Graph.not_onLoop_of_reads (hrewording.unread hunread hx)) ha'

/-- The renaming that swaps subjects and objects. -/
def swap : Renaming := OrdMap.ofList [(⟨"s"⟩, ⟨"o"⟩), (⟨"o"⟩, ⟨"s"⟩)]

/-- A scan of all triples, turned round. -/
def turned : Graph Plan :=
  Graph.edited [.add (.scan ⟨[⟨.var ⟨"s"⟩, .var ⟨"p"⟩, .var ⟨"o"⟩⟩], none, ⟨"main", true⟩⟩),
    .add (.replaceVar swap), .add (.result (.select [])), .connect 0 1 0 false,
    .connect 1 2 0 false, .connect 2 3 0 false]

theorem renameUnderScans_same_rows_turned :
    (renameUnderScans.replace ((Match.only 2).bindAll .scan [1])).Runs (.ofGraph turned)
      fun _ w' => ∀ src limit, ∃ found : List Solution,
        turned.Produces src limit 1 (found.map .solution) ∧
          w'.graph.Produces src limit 1 ((found.map swap.solution).map .solution) := by
  have hop : turned.operator? 2 = some (.replaceVar swap) := rfl
  have hm : renameUnderScans.match? turned 2 = some ((Match.only 2).bindAll .scan [1]) := rfl
  exact (renameUnderScans_same_rows (w := .ofGraph turned) (Graph.symmetric_edited _) rfl hop hm
    (by decide)).mono fun _ _ h => (h 1 (by decide)).2.2.1

end PlanRule

end QuadAlgebra
