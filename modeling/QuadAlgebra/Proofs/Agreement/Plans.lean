import QuadAlgebra.Proofs.Agreement.Rewriting

/-!
# Optimized plans agree with their originals

What a plan is optimized to emulates the plan (`Plan.Graded.emulates`): the nested plans that are
optimized first have the solutions that they had, which is all that filters read of them
(`Graph.Emulates.renested`), and the rules do the rest. So whenever a graded plan has been
evaluated, what it was optimized to is evaluated to the same, as precisely as it matters
(`Plan.Graded.evaluate_optimize`).
-/

namespace QuadAlgebra

open List (Perm Forall₂)

/-! ## Solutions of nested plans -/

namespace Expression

variable {row : Solution}

mutual

/-- How often an existence pattern has a solution makes no difference. -/
theorem value_perm : ∀ (e : Expression) {found found' : List (List Solution)},
    Forall₂ Perm found found' → e.value row found = e.value row found'
  | .variable _, _, _, _ => rfl
  | .constant _, _, _, _ => rfl
  | .bound _, _, _, _ => rfl
  | .existence positive _, _, _, h => by
      cases h with
      | nil => rfl
      | cons hrows _ => simp only [value, List.head?_cons, Option.map_some, hrows.any_eq]
  | .unary _ e, _, _, h => by
      simp only [value]
      rw [value_perm e h]
  | .binary l _ r, _, _, h => by
      simp only [value]
      rw [value_perm l (List.forall₂_take _ h), value_perm r (List.forall₂_drop _ h)]
  | .call _ args, _, _, h => by
      simp only [value]
      rw [values_perm args h]
  | .aggregate _, _, _, _ => rfl

theorem values_perm : ∀ (l : List Expression) {found found' : List (List Solution)},
    Forall₂ Perm found found' → values row l found = values row l found'
  | [], _, _, _ => rfl
  | e :: rest, _, _, h => by
      simp only [values]
      rw [value_perm e (List.forall₂_take _ h), values_perm rest (List.forall₂_drop _ h)]

end

end Expression

section Nested

variable {nested nested' : List (Nat × Except Error (List Solution))}
  (h : ∀ k o, nested.lookup k = some o → ∃ o', nested'.lookup k = some o' ∧ OkRelated Perm o o')

include h

theorem nestedSolutions_perm (k : Nat) (patterns : List Group) :
    OkRelated (Forall₂ Perm) (nestedSolutions nested k patterns)
      (nestedSolutions nested' k patterns) := by
  induction patterns generalizing k with
  | nil => exact .ok .nil
  | cons pattern rest ih =>
      rw [nestedSolutions, nestedSolutions]
      cases ho : nested.lookup k with
      | none =>
          intro found hfound
          cases hfound
      | some o =>
          obtain ⟨o', ho', hrelated⟩ := h k o ho
          rw [ho']
          exact hrelated.bind fun _ _ hrows =>
            (ih (k + 1)).bind fun _ _ hfound => .ok (Forall₂.cons hrows hfound)

/-- An operator emits the same if its nested plans have the same solutions, in any order. -/
theorem Operator.emit_renested {γ : Type} (op : Operator γ) {src : Source} {id : OperatorId}
    {operands : Operands} {rows : List Row}
    (hemit : (op.withNested nested).emit src id operands = .ok rows) :
    (op.withNested nested').emit src id operands = .ok rows := by
  cases op with
  | filter f =>
      have hsame : OkRelated Eq (((Operator.filter f).withNested nested).emit src id operands)
          (((Operator.filter f).withNested nested').emit src id operands) :=
        OkRelated.bind (R := Eq) (fun solutions hs => ⟨solutions, hs, rfl⟩) fun _ solutions he =>
          (nestedSolutions_perm h 0 f.condition.existencePatterns).bind
          fun found found' hfound => by
            have hholds : f.condition.holds found = f.condition.holds found' := by
              funext row
              rw [Expression.holds, Expression.value_perm f.condition hfound, Expression.holds]
            rw [he]
            exact .ok (congrArg (fun keep => (solutions.filter keep).map Row.solution) hholds)
      obtain ⟨rows', hemit', rfl⟩ := hsame rows hemit
      exact hemit'
  | _ => exact hemit

end Nested

theorem exists_lookup_map {γ : Type} {nested : List (Nat × γ)}
    (f f' : γ → Except Error (List Solution))
    (h : ∀ e ∈ nested, OkRelated Perm (f e.2) (f' e.2)) (k : Nat) (o : Except Error (List Solution))
    (ho : (nested.map fun e => (e.1, f e.2)).lookup k = some o) :
    ∃ o', (nested.map fun e => (e.1, f' e.2)).lookup k = some o' ∧ OkRelated Perm o o' := by
  induction nested with
  | nil => cases ho
  | cons e rest ih =>
      obtain ⟨he, hrest⟩ := List.forall_mem_cons.1 h
      simp only [List.map_cons, List.lookup_cons] at ho ⊢
      cases hk : k == e.1 with
      | false => exact ih hrest (by simpa [hk] using ho)
      | true =>
          obtain rfl := Option.some.inj (by simpa [hk] using ho)
          exact ⟨_, rfl, he⟩

/-- Plans may be nested in the place of others with the same solutions. -/
theorem Graph.Emulates.renested {G : Graph Plan} {src : Source} {limit : Nat} {F : Plan → Plan}
    (hfit : (⟨G⟩ : Plan).Fit false) (hsymmetric : G.Symmetric)
    (hF : ∀ id op, G.operator? id = some op → ∀ e ∈ op.nested, (F e.2).Fit false ∧
      OkRelated (fun r r' => r.solutions.Perm r'.solutions) (e.2.evaluate src limit)
        ((F e.2).evaluate src limit)) : (G.mapNested F).Emulates G src limit := by
  have hops := operator?_mapNested F G
  have hreads (x : OperatorId) (i : Input) : (G.mapNested F).Reads x i ↔ G.Reads x i := by
    rw [Reads, Reads, succeeding_mapNested]
  have hlike (op : Operator Plan) :
      (op.withNested (op.nested.map fun e => (e.1, F e.2))).Like op := by
    cases op with
    | filter f => exact .refilter f _
    | _ => exact .same _
  have hsymmetric' : (G.mapNested F).Symmetric :=
    ⟨balanced_congr (succeeding_mapNested F G) (preceding_mapNested F G) hsymmetric.balanced,
      fun s => succeeding_mapNested F G s ▸ hsymmetric.nodup s⟩
  refine ⟨?_, hsymmetric', fun level E hgraded hE => ⟨level, E, hE.recast hgraded
    (fun _ op => op.withNested (op.nested.map fun e => (e.1, F e.2))) (fun x op hop =>
      ⟨hlike op, fun operands rows hrows => ?_⟩) hops hreads hsymmetric'⟩⟩
  · obtain ⟨hlinked, hroot, -⟩ := hfit.graph
    have hwired : (G.mapNested F).Wired G.slots.length (fun x => (G.operator? x).map fun op =>
        op.withNested (op.nested.map fun e => (e.1, F e.2))) G.Reads :=
      ⟨linked_mapNested hlinked F, length_mapNested F G, hops, hreads⟩
    refine hfit.of_wired hwired ?_ (fun x op' hop' => ?_) fun x op' hop' e he => ?_
    · rw [hroot]; rfl
    · obtain ⟨op, hop, rfl⟩ := Option.map_eq_some_iff.1 hop'
      exact ⟨op, hop, hlike op⟩
    · obtain ⟨op, hop, rfl⟩ := Option.map_eq_some_iff.1 hop'
      rw [Operator.nested_withNested_map] at he
      obtain ⟨e', he', rfl⟩ := List.mem_map.1 he
      exact (hF x op hop e' he').1
  · unfold Operator.opened at hrows ⊢
    rw [Operator.withNested_withNested, Operator.nested_withNested_map, List.map_map]
    exact Operator.emit_renested (exists_lookup_map
      (fun q => (q.evaluate src limit).map Evaluation.solutions)
      (fun q => ((F q).evaluate src limit).map Evaluation.solutions)
      fun e he => (hF x op hop e he).2.map fun _ _ hsolutions => hsolutions) op hrows

/-! ## Evaluations that agree -/

namespace Evaluation

/-- Derived quads that are wanted are added, and nothing else. -/
theorem foldlM_addDerived_spec {id : OperatorId} {wanted : RuleOutput} {rows : List Row}
    {e e' : Evaluation} (h : rows.foldlM (addDerived id wanted) e = .ok e') :
    e'.solutions = e.solutions ∧
      ∀ q, q ∈ e'.quads ↔ q ∈ e.quads ∨ wanted.triples = true ∧ .quad q ∈ rows := by
  induction rows generalizing e with
  | nil =>
      obtain rfl := Except.ok.inj h
      simp
  | cons row rest ih =>
      rw [List.foldlM_cons] at h
      cases row with
      | quad q' =>
          obtain ⟨hsolutions, hquads⟩ := ih h
          have hadded (q : Quad) : q ∈ (e.addQuad q').quads ↔ q ∈ e.quads ∨ q = q' := by
            unfold addQuad
            split
            · next hq =>
              have hq := List.contains_iff_mem.1 hq
              exact ⟨.inl, fun h => h.elim (fun hmem => hmem) fun he => he ▸ hq⟩
            · simp
          refine ⟨hsolutions.trans ?_, fun q => (hquads q).trans ?_⟩
          · unfold addQuad
            split <;> [split; skip] <;> rfl
          · split
            · next hwanted => simp [hadded, hwanted, or_assoc]
            · next hwanted => simp [hwanted]
      | fact f =>
          obtain ⟨hsolutions, hquads⟩ := ih h
          refine ⟨hsolutions.trans ?_, fun q => (hquads q).trans ?_⟩
          · unfold addFact
            split <;> [split; skip] <;> rfl
          · have hsame : (if wanted.predicates then e.addFact f else e).quads = e.quads := by
              unfold addFact
              split <;> [split; skip] <;> rfl
            simp [hsame]
      | solution s => cases h
      | action a => cases h

/-- The same solutions as often, unless only their existence is asked for, the same answer and the
same triples. -/
structure Matches (form : ResultForm) (e e' : Evaluation) : Prop where
  solutions : form ≠ .ask → e.solutions.Perm e'.solutions
  ask : e.ask = e'.ask
  triples : e.triples = e'.triples

theorem Matches.of_members {form : ResultForm} {e e' : Evaluation}
    (hsolutions : e.solutions.Perm e'.solutions) (hquads : ∀ q, q ∈ e.quads ↔ q ∈ e'.quads) :
    Matches form e e' where
  solutions _ := hsolutions
  ask := congrArg (! ·) hsolutions.isEmpty_eq
  triples := OrdSet.eq_of_mem_iff fun t => by simp [Evaluation.triples, OrdSet.mem_ofList, hquads]

section Results

variable {l r : List Row} {id : OperatorId} {m n : Nat} {e e' : Evaluation}

/-- Whenever solutions are selected from rows, they are selected from the same rows in another
order. -/
theorem addResult_select {vars : List Variable} (h : l.Perm r) :
    OkRelated (Matches (.select vars)) (addResult ⟨none, [], [], [], [], m⟩ id (.select vars) l)
      (addResult ⟨none, [], [], [], [], n⟩ id (.select vars) r) := by
  refine (expectSolutions_perm h).bind fun found found' hfound =>
    OkRelated.ok (.of_members ?_ fun _ => Iff.rfl)
  dsimp only
  split
  · exact hfound
  · exact hfound.map _

theorem addResult_derived {form : ResultForm} {wanted : RuleOutput} (h : l.Perm r)
    (he : (l.foldlM (addDerived id wanted) ⟨none, [], [], [], [], m⟩).map
      (fun e => { e with form := e.form.or (some form) }) = .ok e)
    (he' : (r.foldlM (addDerived id wanted) ⟨none, [], [], [], [], n⟩).map
      (fun e => { e with form := e.form.or (some form) }) = .ok e') : Matches form e e' := by
  cases hd : l.foldlM (addDerived id wanted) ⟨none, [], [], [], [], m⟩ with
  | error _ =>
      rw [hd] at he
      cases he
  | ok d =>
  cases hd' : r.foldlM (addDerived id wanted) ⟨none, [], [], [], [], n⟩ with
  | error _ =>
      rw [hd'] at he'
      cases he'
  | ok d' =>
  rw [hd] at he
  rw [hd'] at he'
  obtain rfl := Except.ok.inj he
  obtain rfl := Except.ok.inj he'
  obtain ⟨hsolutions, hquads⟩ := foldlM_addDerived_spec hd
  obtain ⟨hsolutions', hquads'⟩ := foldlM_addDerived_spec hd'
  refine .of_members ?_ fun q => ?_
  · rw [hsolutions, hsolutions']
  · rw [hquads, hquads', h.mem_iff]

/-- From rows that agree as precisely as a form of results demands, the same comes out. -/
theorem addResult_matches {form : ResultForm} (h : form.precision.Agree l r)
    (he : addResult ⟨none, [], [], [], [], m⟩ id form l = .ok e)
    (he' : addResult ⟨none, [], [], [], [], n⟩ id form r = .ok e') : Matches form e e' := by
  cases form with
  | select vars =>
      obtain ⟨e'', hselected, hmatches⟩ := addResult_select h e he
      obtain rfl := Except.ok.inj (he'.symm.trans hselected)
      exact hmatches
  | ask =>
      cases hl : expectSolutions id l with
      | error _ => simp [addResult, hl, bind, Except.bind] at he
      | ok found =>
      cases hr : expectSolutions id r with
      | error _ => simp [addResult, hr, bind, Except.bind] at he'
      | ok found' =>
      have hempty : found.isEmpty = found'.isEmpty := by
        rw [eq_map_of_expectSolutions hl, eq_map_of_expectSolutions hr] at h
        simpa using h.isEmpty_eq
      simp only [addResult, hl, hr, bind, Except.bind, pure, Except.pure, List.nil_append,
        Except.ok.injEq] at he he'
      subst he he'
      exact ⟨fun hne => absurd rfl hne, congrArg (! ·) hempty, rfl⟩
  | update =>
      cases hl : expectRows id .actions Row.action? l with
      | error _ => simp [addResult, hl, bind, Except.bind] at he
      | ok found =>
      cases hr : expectRows id .actions Row.action? r with
      | error _ => simp [addResult, hr, bind, Except.bind] at he'
      | ok found' =>
      simp only [addResult, hl, hr, bind, Except.bind, pure, Except.pure, Except.ok.injEq] at he he'
      subst he he'
      exact .of_members (.refl _) fun _ => Iff.rfl
  | construct | describe => exact addResult_derived h he he'
  | materialize wanted => exact addResult_derived h he he'

end Results

end Evaluation

/-! ## Optimized plans -/

namespace Plan

variable {p q : Plan} {src : Source} {limit : Nat} {e e' : Evaluation} {result : OperatorId}
  {form : ResultForm}

/-- The rows of the only result of a plan are all that is gathered. -/
theorem collect_opened (hop : p.graph.operator? result = some (.result form))
    (honly : ∀ x op, p.graph.operator? x = some op → op.kind = .result → x = result)
    (a : Assignment) (n : Nat) : (p.opened src limit).collect a n =
      Evaluation.addResult ⟨none, [], [], [], [], n⟩ result form (a.rows result) := by
  have hresults : (p.opened src limit).results = [result] := by
    refine results_opened (fun x hx => ?_) (Graph.mem_ids_of_operator? hop)
    obtain ⟨op, hop'⟩ := Graph.exists_operator?_of_mem_ids hx
    refine ⟨op, hop', honly x op hop', fun hx => ?_⟩
    subst hx
    rw [Option.some.inj (hop'.symm.trans hop)]
    rfl
  have hopened : (p.opened src limit).operator? result = some (.result form) := by
    rw [opened, Graph.operator?_mapNested, hop]
    rfl
  rw [Graph.collect, hresults, List.foldlM_cons, hopened]
  exact bind_pure _

/-- Whenever a graded plan has been evaluated, what emulates it hands out the same rows, as
precisely as they matter. -/
theorem Graded.exists_rows (h : p.Graded) (hfit : p.Fit false)
    (hemulates : q.graph.Emulates p.graph src limit) (he : p.evaluate src limit = .ok e) :
    ∃ result form l r m n, p.graph.operator? result = some (.result form) ∧
      form.precision.Agree l r ∧
      Evaluation.addResult ⟨none, [], [], [], [], m⟩ result form l = .ok e ∧
      q.evaluate src limit = Evaluation.addResult ⟨none, [], [], [], [], n⟩ result form r := by
  cases h with
  | @intro p level result form graded operator only shown nested selections =>
  obtain ⟨shapes, hregular⟩ := hfit.exists_regular
  obtain ⟨last, n, hlast, hcollect⟩ :=
    Graph.evaluate_eq_ok ((evaluate_eq p src limit).symm.trans he)
  obtain ⟨order, m, hrests, rfl⟩ := hregular.rests_of_finalRows graded.threads hlast
  obtain ⟨level', E', hmirrors⟩ := hemulates.mirrors level _ graded
    (graded.traced (Graph.topologicalOrder_spec hrests.sorted) hrests.runs)
  obtain ⟨shapes', hregular'⟩ := hemulates.fit.exists_regular
  obtain ⟨_, hupdate⟩ := hemulates.fit.exists_updateVariables
  obtain ⟨⟨order', horder'⟩, -⟩ := Graph.updateVariables_eq_ok hupdate
  obtain ⟨m', n', hlast', hrows⟩ := hmirrors.rests hrests hregular.root hregular'
    ((Graph.topologicalOrder_mapNested _ q.graph).trans horder')
  replace hlast' : (q.opened src limit).finalRows src limit = .ok (_, n') := hlast'
  have hresult : q.graph.operator? result = some (.result form) :=
    (hmirrors.results result form).2 operator
  have honly' (x : OperatorId) (op : Operator Plan) (hop : q.graph.operator? x = some op)
      (hkind : op.kind = .result) : x = result := by
    obtain ⟨form', rfl⟩ := Operator.eq_result_of_kind hkind
    exact only x _ ((hmirrors.results x form').1 hop) rfl
  rw [collect_opened operator only] at hcollect
  refine ⟨result, form, _, _, _, n' + 1, operator, shown ▸ hrows result form operator, hcollect, ?_⟩
  rw [evaluate_eq, Graph.evaluate_eq, hlast']
  exact collect_opened hresult honly' _ _

/-- Whenever a graded selection has been evaluated, so is what emulates it, to the same
solutions. -/
theorem Graded.evaluate_selection (h : p.Graded) (hfit : p.Fit false) (hselection : p.IsSelection)
    (hemulates : q.graph.Emulates p.graph src limit) :
    OkRelated (fun e e' => e.solutions.Perm e'.solutions) (p.evaluate src limit)
      (q.evaluate src limit) := by
  intro e he
  obtain ⟨result, form, l, r, m, n, hop, hrows, hresult, hevaluate⟩ :=
    h.exists_rows hfit hemulates he
  obtain ⟨vars, rfl⟩ := hselection result form hop
  obtain ⟨e', he', hmatches⟩ := Evaluation.addResult_select hrows e hresult
  exact ⟨e', hevaluate.trans he', hmatches.solutions (by simp)⟩

variable {provesEmpty : IndexScan → Bool} {rules : List (PlanRule Plan)} {passes : Nat}
  {o : Optimized}

/-- What a graded plan is optimized to emulates the plan. -/
theorem Graded.emulates (h : p.Graded) (hfit : p.Fit false)
    (hempty : ∀ s, provesEmpty s = true → src.scan s = [])
    (hrules : ∀ rule ∈ rules, rule ∈ PlanRule.catalogue provesEmpty)
    (ho : p.optimize rules passes = .ok o) : o.plan.graph.Emulates p.graph src limit := by
  induction h generalizing o with
  | @intro p level result form graded operator only shown nested selections ih =>
  obtain ⟨G⟩ := p
  obtain ⟨-, -, hfits⟩ := hfit.graph
  rw [Plan.optimize, Plan.fold_eq] at ho
  obtain ⟨hnested, counts, g₁, happlied, hfinish⟩ := Graph.optimize_eq_ok ho
  rw [Graph.mapNested_mapNested (k := fun q =>
    ((q.optimize rules passes).toOption.map Optimized.plan).getD default)
      fun _ _ _ _ _ => rfl] at happlied
  refine ((Graph.applyRules_keeps_emulates hempty hrules passes _
    (.renested hfit graded.symmetric fun id op hop e he => ?_)) counts g₁ happlied).updated hfinish
  obtain ⟨⟨⟨G'⟩, counts'⟩, ho'⟩ := hnested id (op.withNested (op.nested.map fun e =>
      (e.1, e.2.fold (Graph.optimize rules passes)))) (by rw [Graph.operator?_mapNested, hop]; rfl)
    (e.1, e.2.fold (Graph.optimize rules passes))
    (by rw [Operator.nested_withNested_map]; exact List.mem_map_of_mem he)
  replace ho' : e.2.optimize rules passes = .ok ⟨⟨G'⟩, counts'⟩ := ho'
  have hemulates := ih id op hop e he (hfits id op hop e he) ho'
  rw [ho']
  exact ⟨hemulates.fit, (nested id op hop e he).evaluate_selection (hfits id op hop e he)
    (selections id op hop e he) hemulates⟩

/-- A graded plan and what it is optimized to are evaluated to the same. -/
theorem Graded.evaluate_optimize (h : p.Graded) (hfit : p.Fit false)
    (hempty : ∀ s, provesEmpty s = true → src.scan s = [])
    (hrules : ∀ rule ∈ rules, rule ∈ PlanRule.catalogue provesEmpty)
    (ho : p.optimize rules passes = .ok o) (he : p.evaluate src limit = .ok e)
    (he' : o.plan.evaluate src limit = .ok e') : ∃ result form,
      p.graph.operator? result = some (.result form) ∧ Evaluation.Matches form e e' := by
  obtain ⟨result, form, l, r, m, n, hop, hrows, hresult, hevaluate⟩ :=
    h.exists_rows hfit (h.emulates hfit hempty hrules ho) he
  exact ⟨result, form, hop, Evaluation.addResult_matches hrows hresult (hevaluate.symm.trans he')⟩

end Plan

end QuadAlgebra
