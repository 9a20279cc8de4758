import QuadAlgebra.Proofs.Planning.Pairs

/-!
# Paths of length zero and negated sets

Both are drawn from scans of all triples, with a fresh variable in each place that does not matter.
The nodes, each one paired with itself, are the subjects together with the objects
(`drawsPairs_zeroLength`). A negated set subtracts the triples of each excluded predicate, once the
predicate has been bound to the variable that stands in its place (`drawsPairs_negatedSet`).
-/

namespace QuadAlgebra

open Solution (Ends Through)

variable {src : Source} {late : Prop} {graph : Option Term} {pp : PathPlanner} {d d₁ d' : Draft}
  {id input out : OperatorId}

/-! ## Patterns with fresh variables -/

/-- A solution makes a triple of a pattern. -/
def Solution.Matches (r : Solution) (p : TriplePattern) (t : Triple) : Prop :=
  r.resolve p.subject = some t.subject ∧ r.resolve p.predicate = some t.predicate ∧
    r.resolve p.object = some t.object

/-- The solutions of a pattern, cut down to some of its items. -/
theorem exists_mem_solutions_iff {p : TriplePattern} {triples : List Triple} {items : List Item}
    (hitems : ∀ i ∈ items, i ∈ p.items) (r : Solution) :
    (∃ full, full ∈ p.solutions triples ∧ full.on items = r) ↔
      ∃ full : Solution, ∃ t ∈ triples, full.Matches p t ∧ full.on items = r := by
  constructor
  · rintro ⟨full, hfull, hon⟩
    obtain ⟨⟨t, ht, hparts⟩, -⟩ := TriplePattern.mem_solutions_iff.1 hfull
    exact ⟨full, t, ht, hparts, hon⟩
  · rintro ⟨full, t, ht, ⟨hs, hp, ho⟩, hon⟩
    refine ⟨full.on p.items, TriplePattern.mem_solutions_iff.2 ⟨⟨t, ht, ?_, ?_, ?_⟩, ?_⟩, ?_⟩
    · rw [Solution.resolve_on (by simp [TriplePattern.items]), hs]
    · rw [Solution.resolve_on (by simp [TriplePattern.items]), hp]
    · rw [Solution.resolve_on (by simp [TriplePattern.items]), ho]
    · intro v hv
      rw [Solution.get?_on, if_neg hv]
    · rw [Solution.on_on hitems, hon]

/-! ## Nodes -/

/-- The terms in subject or in object position, each one paired with itself. -/
def SamePart (triples : List Triple) (asSubject : Bool) (a b : Term) : Prop :=
  a = b ∧ ∃ t ∈ triples, (if asSubject then t.subject else t.object) = a

theorem sameNode_iff {triples : List Triple} {a b : Term} : SameNode triples a b ↔
    SamePart triples true a b ∨ SamePart triples false a b := by
  rw [SameNode, SamePart, SamePart, ← and_or_left, IsNode]
  simp only [if_true, Bool.false_eq_true, if_false]
  refine and_congr_right fun _ => ?_
  simp only [← exists_or, ← and_or_left]

theorem flip_sameNode {triples : List Triple} : flip (SameNode triples) = SameNode triples := by
  funext a b
  refine propext ⟨?_, ?_⟩ <;>
    · rintro ⟨rfl, ha⟩
      exact ⟨rfl, ha⟩

theorem placed_nodes {v : Variable} {asSubject : Bool} (hpp : pp.ForStore graph) (hd : d.Sound)
    (hv : v.OlderThan d.nextVar) (hrun : (pp.nodes v asSubject).runOn d = (.ok out, d')) :
    Placed src late untouched d d' [out]
      [Ends (.var v) (.var v) (SamePart (src.activeTriples graph) asSubject)] := by
  rw [PathPlanner.nodes] at hrun
  obtain ⟨p, d₁, hfresh, hrun⟩ := Edit.runOn_bind_eq_ok.1 hrun
  obtain ⟨rfl, hd₁, hnext, -, hplaced⟩ := freshVar_eq_ok src late hd hfresh
  obtain ⟨q, d₂, hfresh, hrun⟩ := Edit.runOn_bind_eq_ok.1 hrun
  obtain ⟨rfl, hd₂, -, -, hplaced'⟩ := freshVar_eq_ok src late hd₁ hfresh
  obtain ⟨scan, d₃, hscan, hrun⟩ := Edit.runOn_bind_eq_ok.1 hrun
  refine hplaced (hplaced' (((Placed.scan hpp hd₂ hscan).project hpp hrun fun r => ?_)))
  have hvp : v ≠ .interim d.nextVar := hv _ (Nat.le_refl _)
  have hvq : v ≠ .interim d₁.nextVar := hv _ (by omega)
  have hpq : Variable.interim d.nextVar ≠ .interim d₁.nextVar := fun he => by
    have := Variable.interim_injective he
    omega
  rw [exists_mem_solutions_iff (by cases asSubject <;> simp [TriplePattern.items])]
  constructor
  · intro hr
    obtain ⟨⟨a, b, ha, -, -, t, ht, rfl⟩, hon⟩ := Solution.ends_iff.1 hr
    have ha : r.get? v = some (if asSubject = true then t.subject else t.object) := ha
    let full : Solution := (r.insert (.interim d.nextVar) t.predicate).insert
      (.interim d₁.nextVar) (if asSubject = true then t.object else t.subject)
    have hfull : full.get? v = r.get? v := by
      rw [Solution.get?_insert, if_neg hvq, Solution.get?_insert, if_neg hvp]
    have hp : full.get? (.interim d.nextVar) = some t.predicate := by
      rw [Solution.get?_insert, if_neg hpq, Solution.get?_insert, if_pos rfl]
    have hq : full.get? (.interim d₁.nextVar) =
        some (if asSubject = true then t.object else t.subject) := by
      rw [Solution.get?_insert, if_pos rfl]
    refine ⟨full, t, ht, ?_, ?_⟩
    · cases asSubject
      · exact ⟨hq, hp, hfull.trans ha⟩
      · exact ⟨hfull.trans ha, hp, hq⟩
    · rw [← hon]
      exact Solution.on_congr (by simpa using hfull)
  · rintro ⟨full, t, ht, hmatch, rfl⟩
    refine Solution.ends_on ⟨_, _, ?_, ?_, rfl, t, ht, rfl⟩ <;>
      cases asSubject
    · exact hmatch.2.2
    · exact hmatch.1
    · exact hmatch.2.2
    · exact hmatch.1

/-! ## Length zero -/

/-- A variable bound to what another one is bound to. -/
theorem ends_bind_variable {v w : Variable} (hvw : v ≠ w) {triples : List Triple} (r : Solution) :
    Ends (.var v) (.var w) (SameNode triples) r ↔
      ∃ s, Ends (.var v) (.var v) (SameNode triples) s ∧ bindValue w (.variable v) s = r := by
  constructor
  · intro hr
    obtain ⟨⟨a, b, ha, hb, rfl, hnode⟩, hon⟩ := Solution.ends_iff.1 hr
    have ha : r.get? v = some a := ha
    have hb : r.get? w = some a := hb
    refine ⟨r.on [.var v, .var v], Solution.ends_on ⟨a, a, ha, ha, rfl, hnode⟩, ?_⟩
    have hvalue : (r.on [.var v, .var v]).get? v = some a := by
      rw [Solution.get?_on, if_pos List.mem_cons_self, ha]
    rw [bindValue, Expression.value, hvalue]
    refine Solution.eq_of_get? fun x => ?_
    rw [Solution.get?_insert, Solution.get?_on]
    by_cases hx : x = w
    · rw [if_pos hx, hx, hb]
    · rw [if_neg hx]
      by_cases hxv : x = v
      · simp [hxv]
      · rw [if_neg (by simp [hxv]), Solution.on_eq_self_iff.1 hon x (by simp [hx, hxv])]
  · rintro ⟨s, hs, rfl⟩
    obtain ⟨⟨a, b, ha, -, rfl, hnode⟩, hon⟩ := Solution.ends_iff.1 hs
    have ha : s.get? v = some a := ha
    rw [bindValue, Expression.value, ha]
    refine Solution.ends_iff.2
      ⟨⟨a, a, ?_, ?_, rfl, hnode⟩, Solution.on_eq_self_iff.2 fun x hx => ?_⟩
    · rw [Solution.resolve_var, Solution.get?_insert, if_neg hvw, ha]
    · rw [Solution.resolve_var, Solution.get?_insert, if_pos rfl]
    · have hxv : x ≠ v := fun he => hx (by simp [he])
      have hxw : x ≠ w := fun he => hx (by simp [he])
      rw [Solution.get?_insert, if_neg hxw, Solution.on_eq_self_iff.1 hon x (by simp [hxv])]

/-- A variable bound to a node. -/
theorem ends_bind_constant {v : Variable} {t : Term} {triples : List Triple}
    (ht : IsNode triples t) (r : Solution) :
    Ends (.var v) (.term t) (SameNode triples) r ↔ bindValue v (.constant t) ∅ = r := by
  rw [bindValue, Expression.value]
  constructor
  · intro hr
    obtain ⟨⟨a, b, ha, hb, rfl, -⟩, hon⟩ := Solution.ends_iff.1 hr
    obtain rfl : t = a := Option.some.inj hb
    have ha : r.get? v = some t := ha
    refine Solution.eq_of_get? fun x => ?_
    rw [Solution.get?_insert]
    by_cases hx : x = v
    · rw [if_pos hx, hx, ha]
    · rw [if_neg hx, Solution.on_eq_self_iff.1 hon x (by simp [hx])]
      rfl
  · rintro rfl
    refine Solution.ends_iff.2 ⟨⟨t, t, ?_, rfl, rfl, ht⟩, Solution.on_eq_self_iff.2 fun x hx => ?_⟩
    · rw [Solution.resolve_var, Solution.get?_insert, if_pos rfl]
    · have hxv : x ≠ v := fun he => hx (by simp [he])
      rw [Solution.get?_insert, if_neg hxv]
      rfl

theorem ends_ruleFilter_terms {s t : Term} {triples : List Triple} (ht : IsNode triples s)
    (r : Solution) : Ends (.term s) (.term t) (SameNode triples) r ↔
      ∃ r', r' = ∅ ∧ r' = r ∧ satisfiesAll [(.term s, .term t)] r = true := by
  constructor
  · intro hr
    obtain ⟨⟨a, b, ha, hb, rfl, -⟩, hon⟩ := Solution.ends_iff.1 hr
    obtain rfl : s = a := Option.some.inj ha
    obtain rfl : t = s := Option.some.inj hb
    refine ⟨∅, rfl, Solution.eq_of_get? fun x => ?_, by simp [satisfiesAll]⟩
    rw [Solution.on_eq_self_iff.1 hon x (by simp)]
    rfl
  · rintro ⟨_, rfl, rfl, heq⟩
    obtain rfl : s = t := by simpa [satisfiesAll] using heq
    exact Solution.ends_iff.2 ⟨⟨s, s, rfl, rfl, rfl, ht⟩, Solution.on_eq_self_iff.2 fun x _ => rfl⟩

theorem drawsPairs_zeroLength (hpp : pp.ForStore graph) :
    DrawsPairs src graph pp.zeroLength (SameNode (src.activeTriples graph)) := by
  rintro (v | s) (w | t) d d' out hd hs ho hrun
  · obtain ⟨subjects, d₁, hsubjects, hrun⟩ := Edit.runOn_bind_eq_ok.1 hrun
    obtain ⟨objects, d₂, hobjects, hrun⟩ := Edit.runOn_bind_eq_ok.1 hrun
    obtain ⟨union, d₃, hunion, hrun⟩ := Edit.runOn_bind_eq_ok.1 hrun
    obtain ⟨all, d₄, hall, hrun⟩ := Edit.runOn_bind_eq_ok.1 hrun
    have hfirst : Placed src True untouched d d₁ [subjects] _ := placed_nodes hpp hd hs hsubjects
    have hsecond : Placed src True untouched d₁ d₂ [objects] _ := placed_nodes hpp hfirst.ext.sound
      (Variable.OlderThan.mono hs hfirst.ext.nextVar_le) hobjects
    have hboth := (hfirst.append hsecond fun id h => h.elim).union (T :=
      Ends (.var v) (.var v) (SameNode (src.activeTriples graph))) hunion fun r => by
        have hsame : SameNode (src.activeTriples graph) = fun a b =>
            SamePart (src.activeTriples graph) true a b ∨
              SamePart (src.activeTriples graph) false a b :=
          funext fun a => funext fun b => propext sameNode_iff
        rw [hsame]
        exact ends_or r
    have hdone := hboth.distinct hall
    by_cases hvw : v = w
    · subst hvw
      rw [if_pos rfl] at hrun
      obtain ⟨hid, rfl⟩ := Prod.mk.inj hrun
      obtain rfl := Except.ok.inj hid
      exact hdone
    · rw [if_neg hvw] at hrun
      exact hdone.above hrun (Operator.maps_bind _ _) (ends_bind_variable hvw)
  · obtain ⟨probe, d₁, hprobe, hrun⟩ := Edit.runOn_bind_eq_ok.1 hrun
    refine (Placed.probe hpp hd hprobe).above hrun (Operator.maps_bind _ _) fun r => ?_
    rw [ends_bind_constant ho]
    simp
  · obtain ⟨probe, d₁, hprobe, hrun⟩ := Edit.runOn_bind_eq_ok.1 hrun
    refine (Placed.probe hpp hd hprobe).above hrun (Operator.maps_bind _ _) fun r => ?_
    rw [Solution.ends_comm, flip_sameNode, ends_bind_constant hs]
    simp
  · obtain ⟨probe, d₁, hprobe, hrun⟩ := Edit.runOn_bind_eq_ok.1 hrun
    exact (Placed.probe hpp hd hprobe).above hrun (Operator.maps_ruleFilter _)
      (ends_ruleFilter_terms hs)

/-! ## Negated sets -/

section Negated

variable {triples : List Triple} {s o : Item} {any : Variable} {excluded : List Term}

/-- The triples of one predicate, with the predicate bound to the variable in its place, are the
solutions of the pattern in which the variable is bound to it. -/
theorem bind_mem_solutions_iff (hs : s ≠ .var any) (ho : o ≠ .var any) (iri : Term) (r : Solution) :
    (r ∈ (TriplePattern.mk s (.var any) o).solutions triples ∧ r.get? any = some iri) ↔
      ∃ r', r' ∈ (TriplePattern.mk s (.term iri) o).solutions triples ∧
        bindValue any (.constant iri) r' = r := by
  have hother : ∀ {i : Item} {r' : Solution}, i ≠ .var any →
      Solution.resolve (r'.insert any iri) i = r'.resolve i := Solution.resolve_insert
  simp only [TriplePattern.mem_solutions_iff, TriplePattern.items, bindValue, Expression.value]
  constructor
  · rintro ⟨⟨⟨t, ht, hts, htp, hto⟩, hnew⟩, hiri⟩
    have hp : iri = t.predicate := Option.some.inj (hiri.symm.trans htp)
    have hpart : ∀ {i : Item}, i ∈ [s, .term iri, o] →
        (r.on [s, .term iri, o]).resolve i = r.resolve i := Solution.resolve_on
    refine ⟨r.on [s, .term iri, o], ⟨⟨t, ht, ?_, ?_, ?_⟩, fun v hv => ?_⟩,
      Solution.eq_of_get? fun v => ?_⟩
    · rw [hpart (by simp), hts]
    · rw [hp]
      rfl
    · rw [hpart (by simp), hto]
    · rw [Solution.get?_on, if_neg hv]
    · rw [Solution.get?_insert, Solution.get?_on]
      by_cases hv : v = any
      · rw [if_pos hv, hv, hiri]
      · rw [if_neg hv]
        split
        · rfl
        · next hnot => rw [hnew v (by simpa [hv] using hnot)]
  · rintro ⟨r', ⟨⟨t, ht, hts, htp, hto⟩, hnew⟩, rfl⟩
    have hp : iri = t.predicate := Option.some.inj htp
    have hany : OrdMap.get? (r'.insert any iri) any = some iri := by
      rw [Solution.get?_insert, if_pos rfl]
    refine ⟨⟨⟨t, ht, (hother hs).trans hts, hany.trans (congrArg some hp),
      (hother ho).trans hto⟩, fun v hv => ?_⟩, hany⟩
    have hne : v ≠ any := fun he => hv (by simp [he])
    rw [Solution.get?_insert, if_neg hne, hnew v fun hmem => hv ?_]
    simp only [List.mem_cons, List.not_mem_nil, or_false, reduceCtorEq, false_or] at hmem ⊢
    exact hmem.elim .inl fun h => .inr (.inr h)

/-- What avoids some predicates, among solutions that bind the predicate. -/
def AvoidsAt (any : Variable) (excluded : List Term) (r : Solution) : Prop :=
  ∃ p, r.get? any = some p ∧ p ∉ excluded

/-- Subtracting the solutions with an excluded predicate leaves those that avoid all of them. -/
theorem subtract_iff_avoidsAt {r : Solution}
    (hr : r ∈ (TriplePattern.mk s (.var any) o).solutions triples) :
    (∀ r', (r' ∈ (TriplePattern.mk s (.var any) o).solutions triples ∧
      ∃ iri ∈ excluded, r'.get? any = some iri) →
        ¬ (r.compatible r' = true ∧ r.overlaps r' = true)) ↔ AvoidsAt any excluded r := by
  obtain ⟨⟨t, -, -, htp, -⟩, -⟩ := TriplePattern.mem_solutions_iff.1 hr
  have htp : r.get? any = some t.predicate := htp
  constructor
  · refine fun h => ⟨_, htp, fun hex => h r ⟨hr, _, hex, htp⟩ ⟨?_, ?_⟩⟩
    · exact Solution.compatible_iff.2 fun v a b ha hb => Option.some.inj (ha.symm.trans hb)
    · exact List.any_eq_true.2 ⟨any, OrdMap.mem_keys_iff.2 ⟨_, htp⟩,
        OrdMap.contains_iff.2 ⟨_, htp⟩⟩
  · rintro ⟨p, hp, hex⟩ r' ⟨-, iri, hiri, hr'⟩ ⟨hcompat, -⟩
    obtain rfl := Solution.compatible_iff.1 hcompat any p iri hp hr'
    exact hex hiri

theorem ends_avoids (hs : s ≠ .var any) (ho : o ≠ .var any) (r : Solution) :
    Ends s o (Avoids triples excluded) r ↔
      ∃ full, (full ∈ (TriplePattern.mk s (.var any) o).solutions triples ∧
        AvoidsAt any excluded full) ∧ full.on [s, o] = r := by
  constructor
  · intro hr
    obtain ⟨⟨a, b, ha, hb, t, ht, rfl, rfl, hex⟩, hon⟩ := Solution.ends_iff.1 hr
    have hany : OrdMap.get? (r.insert any t.predicate) any = some t.predicate := by
      rw [Solution.get?_insert, if_pos rfl]
    have hs' := Solution.resolve_insert (r := r) (a := t.predicate) hs
    have ho' := Solution.resolve_insert (r := r) (a := t.predicate) ho
    refine ⟨r.insert any t.predicate, ⟨TriplePattern.mem_solutions_iff.2 ⟨⟨t, ht, hs'.trans ha,
      hany, ho'.trans hb⟩, fun v hv => ?_⟩, _, hany, hex⟩, ?_⟩
    · have hne : v ≠ any := fun he => hv (by simp [he, TriplePattern.items])
      rw [Solution.get?_insert, if_neg hne]
      refine Solution.on_eq_self_iff.1 hon v fun hmem => hv ?_
      simp only [TriplePattern.items, List.mem_cons, List.not_mem_nil, or_false] at hmem ⊢
      exact hmem.elim .inl fun h => .inr (.inr h)
    · refine (Solution.on_congr ?_).trans hon
      exact List.forall_mem_cons.2 ⟨hs', List.forall_mem_singleton.2 ho'⟩
  · rintro ⟨full, ⟨hfull, p, hp, hex⟩, rfl⟩
    obtain ⟨⟨t, ht, hts, htp, hto⟩, -⟩ := TriplePattern.mem_solutions_iff.1 hfull
    obtain rfl : p = t.predicate := Option.some.inj (hp.symm.trans htp)
    exact Solution.ends_on ⟨_, _, hts, hto, t, ht, rfl, rfl, hex⟩

end Negated

/-- The solutions with an excluded predicate, drawn predicate by predicate. -/
theorem placed_excluded (hpp : pp.ForStore graph) {any : Variable} (hs : s ≠ .var any)
    (ho : o ≠ .var any) (hd : d.Sound) {excluded : List Term} {removed : List OperatorId}
    (hremoved : (excluded.mapM fun iri => do
      PathPlanner.above (← pp.scan ⟨s, .term iri, o⟩) (.bind any (.constant iri)) :
        Draw (List OperatorId)).runOn d = (.ok removed, d₁))
    (hrun : (PathPlanner.unionOf removed).runOn d₁ = (.ok out, d')) :
    Placed src late untouched d d' [out] [fun r =>
      r ∈ (TriplePattern.mk s (.var any) o).solutions (src.activeTriples graph) ∧
        ∃ iri ∈ excluded, r.get? any = some iri] := by
  have hparts : Placed src late untouched d d₁ removed _ := Placed.mapM (n := 0)
    (fun iri r => r ∈ (TriplePattern.mk s (.var any) o).solutions (src.activeTriples graph) ∧
      r.get? any = some iri)
    excluded (fun iri _ d d' out hd _ hrun => by
      obtain ⟨scan, d₁, hscan, hrun⟩ := Edit.runOn_bind_eq_ok.1 hrun
      exact (Placed.scan hpp hd hscan).above hrun (Operator.maps_bind _ _)
        (bind_mem_solutions_iff hs ho iri)) hd (Nat.zero_le _) hremoved
  refine hparts.unionOf hrun fun r => ?_
  simp only [List.mem_map, exists_exists_and_eq_and]
  exact ⟨fun ⟨hr, iri, hiri, hbound⟩ => ⟨iri, hiri, hr, hbound⟩,
    fun ⟨iri, hiri, hr, hbound⟩ => ⟨hr, iri, hiri, hbound⟩⟩

theorem drawsPairs_negatedPart (hpp : pp.ForStore graph) (excluded : List Term) :
    DrawsPairs src graph (pp.negatedPart excluded)
      (Avoids (src.activeTriples graph) excluded) := by
  intro s o d d' out hd hs ho hrun
  rw [PathPlanner.negatedPart] at hrun
  obtain ⟨any, d₁, hfresh, hrun⟩ := Edit.runOn_bind_eq_ok.1 hrun
  obtain ⟨rfl, hd₁, -, -, hplaced⟩ := freshVar_eq_ok src True hd hfresh
  obtain ⟨base, d₂, hbase, hrun⟩ := Edit.runOn_bind_eq_ok.1 hrun
  have hs' := hs.ne_interim (Nat.le_refl _)
  have ho' := ho.ne_interim (Nat.le_refl _)
  have hall : Placed src False untouched d₁ d₂ [base] _ := Placed.scan hpp hd₁ hbase
  refine hplaced ?_
  by_cases hempty : excluded = []
  · subst hempty
    refine hall.late_of.project hpp hrun fun r => ?_
    rw [ends_avoids hs' ho']
    refine exists_congr fun full => and_congr_left fun _ => and_iff_left_of_imp fun hfull => ?_
    obtain ⟨⟨t, -, -, htp, -⟩, -⟩ := TriplePattern.mem_solutions_iff.1 hfull
    exact ⟨_, htp, List.not_mem_nil⟩
  rw [if_neg (by simpa using hempty)] at hrun
  obtain ⟨removed, d₃, hremoved, hrun⟩ := Edit.runOn_bind_eq_ok.1 hrun
  have hrun : (do
      let right ← PathPlanner.unionOf removed
      let minus ← PathPlanner.combine .minus [base, right]
      pp.project minus s o : Draw OperatorId).runOn d₃ = (.ok out, d') := by
    rcases removed with _ | ⟨first, _ | ⟨second, rest⟩⟩ <;> exact hrun
  obtain ⟨right, d₄, hright, hrun⟩ := Edit.runOn_bind_eq_ok.1 hrun
  obtain ⟨minus, d₅, hminus, hrun⟩ := Edit.runOn_bind_eq_ok.1 hrun
  have hunion : Placed src False untouched d₂ d₄ [right] _ :=
    placed_excluded hpp hs' ho' hall.ext.sound hremoved hright
  have hboth := hall.append hunion fun id h => h.elim
  have hleft := hboth.combine hminus .minus
    fun limit G F hscene hG hin hsets => by
      cases hsets with
      | cons hbase hrest =>
          cases hrest with
          | cons hright _ => exact hscene.settles_minus hG hin hbase hright
  refine hleft.late_of.project hpp hrun fun r => ?_
  rw [ends_avoids hs' ho']
  refine exists_congr fun full => and_congr_left fun _ => and_congr_right fun hfull => ?_
  exact (subtract_iff_avoidsAt hfull).symm

theorem drawsPairs_negatedSet (hpp : pp.ForStore graph) (members : List Excluded) :
    DrawsPairs src graph (pp.negatedSet members)
      (AvoidsAll (src.activeTriples graph) members) := by
  have hpart : ∀ excluded, DrawsPairs src graph (pp.negatedPart excluded)
      (Avoids (src.activeTriples graph) excluded) := drawsPairs_negatedPart hpp
  unfold PathPlanner.negatedSet AvoidsAll
  generalize (members.filter (!·.inverse)).map Excluded.iri = forward
  generalize (members.filter (·.inverse)).map Excluded.iri = backward
  by_cases hbackward : backward = []
  · subst hbackward
    exact ((hpart forward).distinct pp).congr rfl (by simp)
  by_cases hforward : forward = []
  · subst hforward
    refine ((hpart backward).converse.distinct pp).congr ?_ (by simp [hbackward])
    simp [hbackward]
  · refine (((hpart forward).union (hpart backward).converse).distinct pp).congr ?_ ?_
    · simp [hbackward, hforward]
    · simp [hbackward, hforward]

end QuadAlgebra
