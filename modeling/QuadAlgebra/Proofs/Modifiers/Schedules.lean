import QuadAlgebra.Proofs.Modifiers.Sending

/-!
# What a selection makes of solutions

The operators of a selection make of the solutions of its pattern what its modifiers say, for some
order of its computed variables and for what the plans of its existence patterns find
(`Arrangement.Of.sends`). The variables that stand for aggregates are new, so that nothing else
refers to them.
-/

namespace QuadAlgebra

/-! ## Existence patterns -/

section Found

variable {src : Source} {limit : Nat} {rows : List Solution} {p : Planner}

/-- The plan of an existence pattern finds solutions that bind nothing but its scope. -/
theorem Finds.binds {g : Group} {vars : VarSet} (hp : p.ReadsStore)
    (hvars : ∀ v, v ∈ g.scope → v ∈ vars)
    (h : Finds src limit (nestedPlan vars (g.draw p none)) rows) :
    ∀ r ∈ rows, ∀ v ∈ r.keySet, v ∈ g.scope := by
  obtain ⟨d, d', plan, e, hrun, heval, rfl⟩ := h
  obtain ⟨-, htyped⟩ := drawsPlan_nestedPlan (g.drawsSolutions p none) d plan d' hrun
  have hfeeds : FeedsWithin {v | v ∈ g.scope} (g.draw p none) :=
    g.feedsWithin hp (fun _ hv => hv) fun _ hv => absurd (Item.mem_vars.1 hv) List.not_mem_nil
  rw [nestedPlan_runOn] at hrun
  split at hrun
  · next inner hdrawn =>
    obtain ⟨hplan, -⟩ := Prod.mk.inj hrun
    obtain ⟨result, d₁, hadd, hbody⟩ := Edit.runOn_bind_eq_ok.1 hdrawn
    rw [Draw.add_runOn] at hadd
    obtain ⟨hresult, rfl⟩ := Prod.mk.inj hadd
    obtain rfl := Except.ok.inj hresult
    cases hfinish : Graph.updateVariables.runOn inner.graph with
    | mk outcome G =>
        rw [hfinish] at hplan
        cases outcome with
        | error error => cases hplan
        | ok u =>
            obtain rfl := Except.ok.inj hplan
            obtain ⟨previous, last, hlast, hrows⟩ := hfeeds.returns
              (fun v hv => OrdSet.mem_toList.2 (hvars v hv)) rfl hbody hfinish htyped.graph heval
            intro r hr
            refine arriving_within rfl hfeeds hbody hfinish hlast ?_
            rw [← hrows]
            exact List.mem_map_of_mem hr
  · cases hrun

mutual

theorem Expression.binds_of_finds (hp : p.ReadsStore) {draw : Draw Plan} :
    ∀ {e : Expression}, draw ∈ e.drawNested p none → QuadAlgebra.Finds src limit draw rows →
      ∀ r ∈ rows, ∀ v ∈ r.keySet, v ∈ e.outerVars
  | .existence _ g, hdraw, h => by
      rw [List.mem_singleton.1 hdraw] at h
      exact h.binds (p := { p with inRules := false }) hp
        fun v hv => OrdSet.mem_union.2 (.inl hv)
  | .binary l _ r, hdraw, h => fun row hrow v hv => OrdSet.mem_union.2 <|
      (List.mem_append.1 hdraw).imp (fun hl => Expression.binds_of_finds hp hl h row hrow v hv)
        fun hr => Expression.binds_of_finds hp hr h row hrow v hv
  | .unary _ e, hdraw, h => Expression.binds_of_finds hp (e := e) hdraw h
  | .call _ args, hdraw, h => @binds_of_findsEach hp draw args hdraw h
  | .constant _, hdraw, _ | .variable _, hdraw, _ | .bound _, hdraw, _ | .aggregate _, hdraw, _ =>
      absurd hdraw List.not_mem_nil

theorem binds_of_findsEach (hp : p.ReadsStore) {draw : Draw Plan} :
    ∀ {es : List Expression}, draw ∈ (drawNestedOf p none es).flatten →
      QuadAlgebra.Finds src limit draw rows → ∀ r ∈ rows, ∀ v ∈ r.keySet, v ∈ outerVarsOf es
  | [], hdraw, _ => absurd hdraw List.not_mem_nil
  | _ :: _, hdraw, h => fun row hrow v hv => OrdSet.mem_union.2 <|
      (List.mem_append.1 hdraw).imp (fun he => Expression.binds_of_finds hp he h row hrow v hv)
        fun hrest => binds_of_findsEach hp hrest h row hrow v hv

end

/-- The plans of the existence patterns of an expression find solutions that bind nothing but
variables that the expression mentions. -/
theorem Expression.Finds.binds (hp : p.ReadsStore) {e : Expression}
    {found : List (List Solution)} (h : e.Finds p src limit found) :
    ∀ rows ∈ found, ∀ r ∈ rows, ∀ v ∈ r.keySet, v ∈ e.outerVars := by
  intro rows hrows
  obtain ⟨draw, hdraw, hfinds⟩ := exists_of_forall₂ h.flip hrows
  exact Expression.binds_of_finds hp hdraw hfinds

end Found

/-! ## Schedules -/

/-- The schedule is one for a selection. Keys without a name are numbered from the given number on.
The existence patterns of conditions are evaluated on their own. -/
structure Schedule.Fits (plan : Schedule) (p : Planner) (src : Source) (limit n : Nat)
    (s : Selection) (m : Modifiers) : Prop where
  keys : plan.keys = (keysFrom n m.groupBy).map Prod.fst
  keyBindings : Binding.Ordered ((keysFrom n m.groupBy).flatMap Prod.snd) plan.keyBindings
  bindings : Binding.Ordered (m.outputs s).bindings plan.bindings
  found : List.Forall₂ (fun e found => e.Finds p src limit found) m.having plan.found

@[simp] theorem Modifiers.having_outputs (m : Modifiers) (s : Selection) :
    (m.outputs s).having = m.having := by
  cases s <;> rfl

@[simp] theorem Modifiers.orderBy_outputs (m : Modifiers) (s : Selection) :
    (m.outputs s).orderBy = m.orderBy := by
  cases s <;> rfl

theorem drawNestedOf_eq_map (p : Planner) (graph : Option Item) (es : List Expression) :
    drawNestedOf p graph es = es.map (·.drawNested p graph) := by
  induction es with
  | nil => rfl
  | cons e rest ih => rw [drawNestedOf, ih, List.map_cons]

namespace GroupRow

variable {table : AggregateTable}

/-- All conditions hold with variables in the places of their aggregates if the group meets them. -/
theorem all_holds_withAggregates (hnodup : (table.map Prod.fst).Nodup)
    {conditions conditions' : List Expression} {found : List (List (List Solution))}
    (hnamed : List.Forall₂ (Expression.Named table) conditions conditions')
    (hfound : List.Forall₂ (fun e found => (∀ v ∈ e.outerVars, v ∉ table.map Prod.fst) ∧
      FoundAside table found) conditions found) (g : GroupRow) :
    ((conditions'.zip found).all fun c => c.1.holds c.2 (g.withAggregates table)) =
      (conditions.zip found).all fun c => g.meets c.1 c.2 := by
  induction hnamed generalizing found with
  | nil => rfl
  | cons he _ ih =>
      cases hfound with
      | cons hfirst hrest =>
          rw [List.zip_cons_cons, List.zip_cons_cons, List.all_cons, List.all_cons, ih hrest]
          dsimp only
          rw [g.holds_withAggregates hnodup he hfirst.1 hfirst.2]

end GroupRow

/-- Computed variables are not interim variables. -/
theorem Modifiers.WithoutInterim.isInterim_target {s : Selection} {m : Modifiers}
    (hw : m.WithoutInterim s) {b : Binding} (hb : b ∈ (m.outputs s).bindings) :
    b.target.isInterim = false := by
  cases s with
  | wildcard => cases hb
  | explicit items =>
      obtain ⟨i, hi, hbinding⟩ := List.mem_filterMap.1 hb
      cases i with
      | «variable» v => cases hbinding
      | computed e target =>
          obtain rfl := Option.some.inj hbinding
          exact hw.targets items rfl _ hi

namespace Arrangement.Of

variable {a : Arrangement} {first : Nat} {s : Selection} {m : Modifiers}
  {nested : List (List (Draw Plan))} (h : a.Of first s m nested)

include h

/-- Variables that stand for aggregates are interim variables. -/
theorem not_mem_of_not_isInterim {v : Variable} (hv : v.isInterim = false) :
    v ∉ a.table.map Prod.fst := by
  intro hmem
  obtain ⟨n, -, -, rfl⟩ := h.numbered.mem hmem
  rw [Variable.isInterim_interim] at hv
  cases hv

/-- They differ from all keys. -/
theorem not_mem_keys (hw : m.WithoutInterim s) {v : Variable} (hv : v ∈ a.table.map Prod.fst) :
    v ∉ a.keys.map Prod.fst := by
  intro hkey
  rw [h.keys] at hkey
  rcases mem_keysFrom hkey with ⟨k, hk, hnamed⟩ | ⟨i, hi, rfl⟩
  · exact h.not_mem_of_not_isInterim (hw.keys k hk v hnamed) hv
  · obtain ⟨n, -, hn, he⟩ := h.numbered.mem hv
    obtain rfl := Variable.interim_injective he
    exact absurd hn (Nat.not_lt.2 hi)

/-- There are variables for aggregates if and only if there are aggregates. -/
theorem grouping_eq : (!m.groupBy.isEmpty || !a.table.isEmpty) = m.isGrouped s := by
  rw [Modifiers.isGrouped]
  congr 1
  cases hagg : (m.outputs s).hasAggregate with
  | true => simpa using h.named.ne_nil hagg
  | false => simp [h.bare hagg]

theorem table_eq_nil_of_not_isGrouped (hnot : m.isGrouped s = false) : a.table = [] := by
  rw [← h.grouping_eq] at hnot
  simpa using (Bool.or_eq_false_iff.1 hnot).2

theorem table_eq_nil_of_wildcard (hs : s = .wildcard) : a.table = [] := by
  by_contra hne
  exact h.explicit (.inr hne) hs

variable {src : Source} {limit : Nat} {rows out : List Solution}

theorem sends_grouping (hw : m.WithoutInterim s) (plan : Schedule)
    (hkeys : plan.keys = a.keys.map Prod.fst) (hbindings : plan.keyBindings = a.keyBindings)
    (hsend : Sends src limit (grouping m (a.keys.map Prod.fst) a.table a.keyBindings) rows out) :
    out = (plan.groups s m rows).map (GroupRow.withAggregates a.table) := by
  rw [grouping, sends_append] at hsend
  obtain ⟨keyed, hkeyed, hgroup⟩ := hsend
  rw [sends_group hgroup, sends_bindOperators hkeyed, h.grouping_eq, Schedule.groups, hkeys,
    hbindings]
  split
  · exact groupSolutions_eq_map h.numbered.nodup (fun v hv => h.not_mem_keys hw hv) _
  · next hnot =>
    rw [h.table_eq_nil_of_not_isGrouped (Bool.eq_false_iff.2 hnot), List.map_map]
    exact (List.map_id _).symm

/-- Groups for which all conditions hold are kept. -/
theorem sends_conditions (hw : m.WithoutInterim s) {p : Planner} (hp : p.ReadsStore)
    (hnested : nested = drawNestedOf p none m.having) {groups : List GroupRow}
    (hsend : Sends src limit a.filters (groups.map (GroupRow.withAggregates a.table)) out) :
    ∃ found, List.Forall₂ (fun e found => e.Finds p src limit found) m.having found ∧
      out = (groups.filter fun g => (m.having.zip found).all fun c => g.meets c.1 c.2).map
        (GroupRow.withAggregates a.table) := by
  subst hnested
  have hnamed := h.named.having
  rw [m.having_outputs] at hnamed
  -- there are as many plans as existence patterns
  have hlengths : List.Forall₂ (fun (e : Expression) (draws : List (Draw Plan)) =>
      draws.length = e.existencePatterns.length) a.outputs.having
        (drawNestedOf p none m.having) := by
    rw [drawNestedOf_eq_map, List.forall₂_map_right_iff]
    refine hnamed.flip.imp fun e' e he => ?_
    rw [(e.drawNested_plans p none).1, he.existencePatterns_eq]
  obtain ⟨found, hfound, rfl⟩ := sends_filters h.filters hlengths hsend
  rw [drawNestedOf_eq_map, List.forall₂_map_left_iff] at hfound
  have hfinds : List.Forall₂ (fun e found => e.Finds p src limit found) m.having found := hfound
  refine ⟨found, hfinds, ?_⟩
  have haside : List.Forall₂ (fun e found => (∀ v ∈ e.outerVars, v ∉ a.table.map Prod.fst) ∧
      FoundAside a.table found) m.having found := by
    refine ((List.forall₂_and_left _ _).2 ⟨fun e he => he, hfinds⟩).imp
      fun e found ⟨he, hfound⟩ => ?_
    have hvars : ∀ v ∈ e.outerVars, v ∉ a.table.map Prod.fst := fun v hv =>
      h.not_mem_of_not_isInterim (hw.having e he v hv)
    refine ⟨hvars, fun rows hrows r hr v hv => ?_⟩
    by_contra hbound
    obtain ⟨t, ht⟩ := Option.ne_none_iff_exists'.1 hbound
    exact hvars v (hfound.binds hp rows hrows r hr v (Solution.mem_keySet.2 ⟨t, ht⟩)) hv
  rw [List.filter_map]
  congr 2
  funext g
  exact g.all_holds_withAggregates h.numbered.nodup hnamed haside

/-- The selected variables have the same values with or without those for aggregates. -/
theorem project_withAggregates (hw : m.WithoutInterim s) (g : GroupRow) :
    (a.outputs.items.elim (g.withAggregates a.table) fun items =>
      (g.withAggregates a.table).restrict (OrdSet.ofList (items.map SelectItem.target))) =
        s.project g.row := by
  have htargets := h.named.targets
  cases s with
  | wildcard =>
      rw [Modifiers.outputs, Option.map_none, Option.map_eq_none_iff] at htargets
      rw [htargets, h.table_eq_nil_of_wildcard rfl]
      rfl
  | explicit items =>
      obtain ⟨items', hitems', htargets⟩ := Option.map_eq_some_iff.1 htargets
      rw [hitems', Option.elim_some, htargets]
      refine g.restrict_withAggregates fun v hv => ?_
      obtain ⟨i, hi, rfl⟩ := List.mem_map.1 (OrdSet.mem_ofList.1 hv)
      exact h.not_mem_of_not_isInterim (hw.targets items rfl i hi)

/-- Computed variables are bound, and the rest is sorted, projected and cut. -/
theorem sends_above (hw : m.WithoutInterim s) (d : Duplicates) {groups : List GroupRow}
    (hsend : Sends src limit (above d m a.outputs a.bindings)
      (groups.map (GroupRow.withAggregates a.table)) out) :
    ∃ bindings, Binding.Ordered (m.outputs s).bindings bindings ∧
      out = m.cut (d.removed ((stableSort (GroupRow.compareBy m.orderBy)
        (groups.map (bindings.foldl GroupRow.bind ·))).map fun g => s.project g.row)) := by
  obtain ⟨bindings, hnamed, hordered⟩ := Binding.exists_ordered h.named.bindings
    (fun b hb => h.not_mem_of_not_isInterim (hw.isInterim_target hb)) h.bindings
  refine ⟨bindings, hordered, ?_⟩
  have hvars : ∀ b ∈ bindings, (∀ v ∈ b.expression.outerVars, v ∉ a.table.map Prod.fst) ∧
      b.target ∉ a.table.map Prod.fst := fun b hb =>
    have hb := hordered.perm.mem_iff.1 hb
    ⟨fun v hv => h.not_mem_of_not_isInterim (hw.bindings b hb v hv),
      h.not_mem_of_not_isInterim (hw.isInterim_target hb)⟩
  have horder := h.named.orderBy
  rw [m.orderBy_outputs] at horder
  rw [above, sends_append] at hsend
  obtain ⟨bound, hbound, hsend⟩ := hsend
  rw [sends_append] at hsend
  obtain ⟨sorted, hsorted, hsend⟩ := hsend
  rw [sends_append] at hsend
  obtain ⟨selected, hselected, hsend⟩ := hsend
  rw [sends_append] at hsend
  obtain ⟨distinct, hdistinct, hsend⟩ := hsend
  rw [sends_append] at hsend
  obtain ⟨skipped, hskipped, hlimit⟩ := hsend
  rw [sends_limit hlimit, sends_offset hskipped, sends_distinct hdistinct,
    sends_projection hselected, sends_sort hsorted, sends_bindOperators hbound, List.map_map]
  have hbind : (bindAll a.bindings ∘ GroupRow.withAggregates a.table) =
      GroupRow.withAggregates a.table ∘ (bindings.foldl GroupRow.bind ·) :=
    funext fun g => g.bindAll_withAggregates h.numbered.nodup hnamed hvars
  rw [hbind, ← List.map_map, stableSort_map (GroupRow.compareBy m.orderBy) _ fun g g' =>
    GroupRow.compareBy_withAggregates h.numbered.nodup horder
      (fun k hk v hv => h.not_mem_of_not_isInterim (hw.orderBy k hk v hv)) g g', List.map_map]
  have hproject : (fun row : Solution => a.outputs.items.elim row fun items =>
      row.restrict (OrdSet.ofList (items.map SelectItem.target))) ∘
        GroupRow.withAggregates a.table = fun g => s.project g.row :=
    funext fun g => h.project_withAggregates hw g
  rw [hproject]
  rfl

end Arrangement.Of

/-- The operators of a selection make of solutions what its modifiers say. -/
theorem Arrangement.Of.sends {a : Arrangement} {first : Nat} {s : Selection} {m : Modifiers}
    {p : Planner} (h : a.Of first s m (drawNestedOf p none m.having)) (hw : m.WithoutInterim s)
    (hp : p.ReadsStore) {src : Source} {limit : Nat} {rows out : List Solution} (d : Duplicates)
    (hsend : Sends src limit (a.operators d m) rows out) : ∃ plan : Schedule,
      plan.Fits p src limit (first + a.table.length) s m ∧ out = plan.solutions d s m rows := by
  rw [operators, sends_append] at hsend
  obtain ⟨grouped, hgrouped, habove⟩ := hsend
  rw [sends_append] at habove
  obtain ⟨kept, hkept, habove⟩ := habove
  have hgroups := h.sends_grouping hw ⟨a.keys.map Prod.fst, a.keyBindings, [], []⟩ rfl rfl hgrouped
  subst hgroups
  obtain ⟨found, hfound, rfl⟩ := h.sends_conditions hw hp rfl hkept
  obtain ⟨bindings, hbindings, rfl⟩ := h.sends_above hw d habove
  refine ⟨⟨a.keys.map Prod.fst, a.keyBindings, bindings, found⟩, ⟨?_, ?_, hbindings, hfound⟩, rfl⟩
  · rw [h.keys]
  · rw [← h.keys]
    exact Binding.ordered_of_sort h.keyBindings

end QuadAlgebra
