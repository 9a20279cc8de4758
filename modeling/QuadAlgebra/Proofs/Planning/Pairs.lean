import QuadAlgebra.Proofs.Planning.PathSteps
import QuadAlgebra.Proofs.Planning.Relations

/-!
# Drawings of relations

A drawing of a path draws the pairs of a relation if, put between any two items at which a path can
end, it places an operator that settles at the solutions for the ends of the relation
(`DrawsPairs`). Items at which a path can end are nodes and variables that will not be handed out
any more, so that interim variables never get in each other's way. Single triples draw the pairs of
their predicate; converses, sequences and alternatives draw what their parts draw, turned around,
composed and united.
-/

namespace QuadAlgebra

open Relation (Comp)
open Solution (Ends Through)

/-! ## Interim variables -/

/-- Different numbers are written differently. -/
theorem repr_injective : Function.Injective Nat.repr := by
  intro m n hrepr
  have hdigits : Nat.toDigits 10 m = Nat.toDigits 10 n := by
    rw [← Nat.toList_repr, ← Nat.toList_repr, hrepr]
  rw [← Nat.ofDigitChars_toDigits (b := 10) (n := m) (by decide) (by decide), hdigits,
    Nat.ofDigitChars_toDigits (by decide) (by decide)]

namespace Variable

theorem interim_injective : Function.Injective interim := fun _ _ h =>
  repr_injective ((String.append_right_inj _).1 (congrArg name h))

theorem isInterim_interim (n : Nat) : (interim n).isInterim = true := by
  rw [isInterim, String.isPrefixOf, String.startsWith_string_iff, interim, String.toList_append]
  exact ⟨'i' :: n.repr.toList, rfl⟩

/-- A variable that is not handed out from some number on. -/
def OlderThan (v : Variable) (n : Nat) : Prop := ∀ m ≥ n, v ≠ interim m

theorem olderThan_of_not_isInterim {v : Variable} (h : v.isInterim = false) (n : Nat) :
    v.OlderThan n := by
  rintro m - rfl
  rw [isInterim_interim] at h
  cases h

theorem OlderThan.mono {v : Variable} {m n : Nat} (h : v.OlderThan m) (hmn : m ≤ n) :
    v.OlderThan n := fun k hk => h k (Nat.le_trans hmn hk)

theorem olderThan_interim {n k : Nat} (h : n < k) : (interim n).OlderThan k := by
  intro m hm he
  obtain rfl := interim_injective he
  exact absurd h (Nat.not_lt.2 hm)

end Variable

/-- An item at which a path can end. -/
def Item.CanEnd (triples : List Triple) (n : Nat) : Item → Prop
  | .var v => v.OlderThan n
  | .term t => IsNode triples t

namespace Item.CanEnd

variable {triples : List Triple} {m n : Nat} {i : Item}

theorem mono (h : i.CanEnd triples m) (hmn : m ≤ n) : i.CanEnd triples n := by
  cases i with
  | var v => exact Variable.OlderThan.mono h hmn
  | term t => exact h

theorem ne_interim (h : i.CanEnd triples m) (hmn : m ≤ n) : i ≠ .var (.interim n) := by
  rintro rfl
  exact h n hmn rfl

theorem interim (h : m < n) : CanEnd triples n (.var (.interim m)) := Variable.olderThan_interim h

end Item.CanEnd

/-! ## Drawings of relations -/

/-- A path planner over a store in memory, in the default graph or a constant one. -/
structure PathPlanner.ForStore (pp : PathPlanner) (graph : Option Term) : Prop where
  scans : ∃ dataset known, pp.planner.scans = .ofStore dataset known
  graph_eq : pp.graph = graph.map .term

theorem PathPlanner.ForStore.restrict_endpoints {pp : PathPlanner} {graph : Option Term}
    (hpp : pp.ForStore graph) (s o : Item) (r : Solution) :
    r.restrict (pp.endpoints s o) = r.on [s, o] := by
  refine Solution.eq_of_get? fun v => ?_
  rw [Solution.get?_restrict, Solution.get?_on, PathPlanner.endpoints, hpp.graph_eq]
  simp only [Item.mem_vars]
  cases graph <;> simp

/-- Nothing older than a drawing is touched by it. -/
abbrev untouched : OperatorId → Prop := fun _ => False

/-- A drawing that places operators with the solutions for the ends of a relation. -/
def DrawsPairs (src : Source) (graph : Option Term) (path : DrawPath)
    (R : Term → Term → Prop) : Prop :=
  ∀ (s o : Item) (d d' : Draft) (out : OperatorId), d.Sound →
    s.CanEnd (src.activeTriples graph) d.nextVar → o.CanEnd (src.activeTriples graph) d.nextVar →
      (path s o).runOn d = (.ok out, d') → Placed src True untouched d d' [out] [Ends s o R]

section Steps

variable {src : Source} {late : Prop} {graph : Option Term} {pp : PathPlanner} {d d₁ d' : Draft}
  {id input : OperatorId} {S : SolutionSet} {R T : Term → Term → Prop} {s o : Item}

/-- A variable that has been handed out is of use from then on. -/
theorem freshVar_eq_ok (src : Source) (late : Prop) {v : Variable} (hd : d.Sound)
    (h : Draw.freshVar.runOn d = (.ok v, d₁)) :
    v = .interim d.nextVar ∧ d₁.Sound ∧ d₁.nextVar = d.nextVar + 1 ∧ d₁.graph = d.graph ∧
      ∀ {touched : OperatorId → Prop} {d' : Draft} {outs : List OperatorId}
        {sets : List SolutionSet}, Placed src late touched d₁ d' outs sets →
          Placed src late touched d d' outs sets := by
  rw [Draw.freshVar_runOn] at h
  obtain ⟨hv, rfl⟩ := Prod.mk.inj h
  obtain rfl := Except.ok.inj hv
  exact ⟨rfl, ⟨hd.tidy, hd.root, hd.inputs_root⟩, rfl, rfl, fun hplaced =>
    hplaced.of_graph_eq rfl (Nat.le_succ _)⟩

namespace Placed

theorem scan {p : TriplePattern} (hpp : pp.ForStore graph) (hd : d.Sound)
    (hrun : (pp.scan p).runOn d = (.ok id, d')) :
    Placed src late untouched d d' [id]
      [fun r => r ∈ p.solutions (src.activeTriples graph)] := by
  obtain ⟨dataset, known, hscans⟩ := hpp.scans
  have hop : pp.planner.scan [p] pp.graph =
      .scan ⟨[p], graph.map .term, ⟨dataset, true⟩⟩ := by
    rw [Planner.scan, hscans, hpp.graph_eq]
    rfl
  rw [PathPlanner.scan, hop] at hrun
  refine source hd hrun (Operator.maps_scan _) fun r => ?_
  rw [scan_eq [p] (List.cons_ne_nil _ _), List.map_singleton, joinMany_singleton]
  simp

theorem probe (hpp : pp.ForStore graph) (hd : d.Sound) (hrun : pp.probe.runOn d = (.ok id, d')) :
    Placed src late untouched d d' [id] [fun r => r = ∅] := by
  refine source hd hrun (Operator.maps_probe _) fun r => ?_
  have hprobe : src.probe pp.graph = [∅] := by
    rw [hpp.graph_eq]
    cases graph <;> rfl
  rw [hprobe]
  simp [eq_comm]

theorem distinct (h : Placed src late untouched d d₁ [input] [S])
    (hrun : (pp.distinct input).runOn d₁ = (.ok id, d')) :
    Placed src late untouched d d' [id] [S] := by
  rw [PathPlanner.distinct] at hrun
  split at hrun
  · exact h.above hrun Operator.maps_distinct fun r => by simp
  · obtain ⟨hid, rfl⟩ := Prod.mk.inj hrun
    obtain rfl := Except.ok.inj hid
    exact h

/-- A projection to the items that a path ends at. -/
theorem project {T : SolutionSet} (hpp : pp.ForStore graph)
    (h : Placed src late untouched d d₁ [input] [S])
    (hrun : (pp.project input s o).runOn d₁ = (.ok id, d'))
    (hT : ∀ r, T r ↔ ∃ full, S full ∧ full.on [s, o] = r) :
    Placed src late untouched d d' [id] [T] := by
  refine h.above hrun (Operator.maps_projection _) fun r => ?_
  simp only [hT, hpp.restrict_endpoints]

/-- A join of relations that all pass between the same two items. -/
theorem joinProject {legs : List Leg} {outs : List OperatorId} {join : OperatorId} {d₂ : Draft}
    (hpp : pp.ForStore graph) (h : Placed src late untouched d d₁ outs (legs.map Leg.ends))
    (hjoin : (PathPlanner.combine .join outs).runOn d₁ = (.ok join, d₂))
    (hrun : (pp.project join s o).runOn d₂ = (.ok id, d'))
    (hs : s ∈ legs.flatMap Leg.items) (ho : o ∈ legs.flatMap Leg.items) :
    Placed src late untouched d d' [id] [Through legs [s, o]] := by
  have hne : legs ≠ [] := by
    rintro rfl
    exact absurd hs List.not_mem_nil
  exact (h.join hne hjoin).project hpp hrun fun r => Solution.through_on
    (List.forall_mem_cons.2 ⟨hs, List.forall_mem_singleton.2 ho⟩)

end Placed

end Steps

/-! ## Triples, converses, sequences and alternatives -/

section Fixed

variable {src : Source} {graph : Option Term} {pp : PathPlanner} {path path' : DrawPath}
  {R R' : Term → Term → Prop}

theorem mem_solutions_iff_ends {triples : List Triple} {s o : Item} {iri : Term} :
    (fun r => r ∈ (TriplePattern.mk s (.term iri) o).solutions triples) =
      Ends s o fun a b => ⟨a, iri, b⟩ ∈ triples := by
  funext r
  rw [TriplePattern.mem_solutions_iff, Solution.ends_iff, Solution.on_eq_self_iff]
  refine propext (and_congr ⟨?_, ?_⟩ ?_)
  · rintro ⟨⟨a, p, b⟩, ht, ha, hp, hb⟩
    obtain rfl : iri = p := Option.some.inj hp
    exact ⟨a, b, ha, hb, ht⟩
  · rintro ⟨a, b, ha, hb, ht⟩
    exact ⟨⟨a, iri, b⟩, ht, ha, rfl, hb⟩
  · simp [TriplePattern.items]

theorem drawsPairs_triple (hpp : pp.ForStore graph) (iri : Term) :
    DrawsPairs src graph (fun s o => pp.scan ⟨s, .term iri, o⟩)
      fun a b => ⟨a, iri, b⟩ ∈ src.activeTriples graph := by
  intro s o d d' out hd _ _ hrun
  rw [← mem_solutions_iff_ends]
  exact Placed.scan hpp hd hrun

theorem DrawsPairs.converse (h : DrawsPairs src graph path R) :
    DrawsPairs src graph (fun s o => path o s) fun a b => R b a := by
  intro s o d d' out hd hs ho hrun
  have hset : Ends s o (fun a b => R b a) = Ends o s R :=
    funext fun r => propext Solution.ends_comm
  rw [hset]
  exact h o s d d' out hd ho hs hrun

/-- Two relations that meet in a fresh variable. -/
theorem through_comp {triples : List Triple} {n : Nat} {s o : Item} (hs : s.CanEnd triples n)
    (ho : o.CanEnd triples n) :
    Through [⟨s, .var (.interim n), R⟩, ⟨.var (.interim n), o, R'⟩] [s, o] =
      Ends s o (Comp R R') := by
  refine Solution.through_eq_ends (fun full hfits => ?_) fun full hfits => ?_
  · obtain ⟨a, c, ha, hc, hac⟩ := hfits _ List.mem_cons_self
    obtain ⟨c', b, hc', hb, hcb⟩ := hfits _ (List.mem_cons_of_mem _ List.mem_cons_self)
    obtain rfl : c = c' := Option.some.inj (hc.symm.trans hc')
    exact ⟨a, b, ha, hb, c, hac, hcb⟩
  · obtain ⟨a, b, ha, hb, c, hac, hcb⟩ := hfits
    have hs' := Solution.resolve_insert (r := full) (a := c) (hs.ne_interim (Nat.le_refl _))
    have ho' := Solution.resolve_insert (r := full) (a := c) (ho.ne_interim (Nat.le_refl _))
    have hm : Solution.resolve (full.insert (.interim n) c) (.var (.interim n)) = some c := by
      simp [Solution.get?_insert]
    refine ⟨full.insert (.interim n) c, ?_, Solution.on_congr ?_⟩
    · refine List.forall_mem_cons.2 ⟨⟨a, c, hs'.trans ha, hm, hac⟩, ?_⟩
      exact List.forall_mem_singleton.2 ⟨c, b, hm, ho'.trans hb, hcb⟩
    · exact List.forall_mem_cons.2 ⟨hs', List.forall_mem_singleton.2 ho'⟩

theorem DrawsPairs.sequence (hpp : pp.ForStore graph) (h : DrawsPairs src graph path R)
    (h' : DrawsPairs src graph path' R') :
    DrawsPairs src graph (fun s o => do
      let middle : Item := .var (← Draw.freshVar)
      let left ← path s middle
      let right ← path' middle o
      let join ← PathPlanner.combine .join [left, right]
      pp.project join s o) (Comp R R') := by
  intro s o d d' out hd hs ho hrun
  obtain ⟨m, d₁, hfresh, hrun⟩ := Edit.runOn_bind_eq_ok.1 hrun
  obtain ⟨rfl, hd₁, hnext, -, hplaced⟩ := freshVar_eq_ok src True hd hfresh
  obtain ⟨left, d₂, hleft, hrun⟩ := Edit.runOn_bind_eq_ok.1 hrun
  obtain ⟨right, d₃, hright, hrun⟩ := Edit.runOn_bind_eq_ok.1 hrun
  obtain ⟨join, d₄, hjoin, hrun⟩ := Edit.runOn_bind_eq_ok.1 hrun
  have hm : Item.CanEnd (src.activeTriples graph) d₁.nextVar (.var (.interim d.nextVar)) :=
    .interim (by omega)
  have hfirst := h s _ d₁ d₂ left hd₁ (hs.mono (by omega)) hm hleft
  have hsecond := h' _ o d₂ d₃ right hfirst.ext.sound (hm.mono hfirst.ext.nextVar_le)
    (ho.mono (Nat.le_trans (by omega) hfirst.ext.nextVar_le)) hright
  have hboth : Placed src True untouched d₁ d₃ [left, right] (List.map Leg.ends
      [⟨s, .var (.interim d.nextVar), R⟩, ⟨.var (.interim d.nextVar), o, R'⟩]) :=
    hfirst.append hsecond fun id h => h.elim
  have hjoined := hboth.joinProject (s := s) (o := o) hpp hjoin hrun (by simp [Leg.items])
    (by simp [Leg.items])
  rw [through_comp hs ho] at hjoined
  exact hplaced hjoined

theorem ends_or {s o : Item} (r : Solution) : Ends s o (fun a b => R a b ∨ R' a b) r ↔
    ∃ S ∈ [Ends s o R, Ends s o R'], S r := by
  simp only [List.exists_mem_cons_iff, List.not_mem_nil, false_and, exists_false, or_false,
    Solution.ends_iff, Solution.Fits, ← or_and_right, ← exists_or, and_or_left]

theorem ends_project {s o : Item} (r : Solution) :
    Ends s o R r ↔ ∃ full, Ends s o R full ∧ full.on [s, o] = r :=
  Solution.through_on fun _ hi => hi

theorem DrawsPairs.union (h : DrawsPairs src graph path R) (h' : DrawsPairs src graph path' R') :
    DrawsPairs src graph (fun s o => do
      let left ← path s o
      let right ← path' s o
      PathPlanner.combine .union [left, right]) fun a b => R a b ∨ R' a b := by
  intro s o d d' out hd hs ho hrun
  obtain ⟨left, d₁, hleft, hrun⟩ := Edit.runOn_bind_eq_ok.1 hrun
  obtain ⟨right, d₂, hright, hrun⟩ := Edit.runOn_bind_eq_ok.1 hrun
  have hfirst := h s o d d₁ left hd hs ho hleft
  have hsecond := h' s o d₁ d₂ right hfirst.ext.sound (hs.mono hfirst.ext.nextVar_le)
    (ho.mono hfirst.ext.nextVar_le) hright
  exact (hfirst.append hsecond fun id h => h.elim).union hrun ends_or

theorem DrawsPairs.project (hpp : pp.ForStore graph) (h : DrawsPairs src graph path R) :
    DrawsPairs src graph (fun s o => do pp.project (← path s o) s o) R := by
  intro s o d d' out hd hs ho hrun
  obtain ⟨input, d₁, hinput, hrun⟩ := Edit.runOn_bind_eq_ok.1 hrun
  exact (h s o d d₁ input hd hs ho hinput).project hpp hrun ends_project

theorem DrawsPairs.distinct (pp : PathPlanner) (h : DrawsPairs src graph path R) :
    DrawsPairs src graph (fun s o => do pp.distinct (← path s o)) R := by
  intro s o d d' out hd hs ho hrun
  obtain ⟨input, d₁, hinput, hrun⟩ := Edit.runOn_bind_eq_ok.1 hrun
  exact (h s o d d₁ input hd hs ho hinput).distinct hrun

/-- Drawings of the same path can be exchanged. -/
theorem DrawsPairs.congr (h : DrawsPairs src graph path R) (hpath : path' = path) (hR : R' = R) :
    DrawsPairs src graph path' R' := hpath ▸ hR ▸ h

theorem DrawsPairs.alternative (hpp : pp.ForStore graph) (h : DrawsPairs src graph path R)
    (h' : DrawsPairs src graph path' R') :
    DrawsPairs src graph (fun s o => do
      let left ← path s o
      let right ← path' s o
      let union ← PathPlanner.combine .union [left, right]
      pp.distinct (← pp.project union s o)) fun a b => R a b ∨ R' a b :=
  (((h.union h').project hpp).distinct pp).congr (by simp only [bind_assoc]) rfl

end Fixed

end QuadAlgebra
