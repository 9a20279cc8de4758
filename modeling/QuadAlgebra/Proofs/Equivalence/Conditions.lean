import QuadAlgebra.Proofs.Optimization.Reductions
import QuadAlgebra.Proofs.Solution.Ends
import QuadAlgebra.Proofs.Variables.Bounds

/-!
# Where conditions are decided

The value of an expression depends on the terms of the variables that it mentions, so what a filter
decides about a solution does as well (`Operator.keeps_congr`). A solution that binds all of them
settles the decision for everything that it is extended to. A filter of joined solutions may
therefore be applied to one of the joined lists, or to several of them, if their solutions settle
the decision (`filter_joinMany`), and a filter of a left join to the list on the left.
-/

namespace QuadAlgebra

/-! ## Values of expressions -/

namespace Expression

variable {s t : Solution}

mutual

theorem value_congr : ∀ e : Expression, (∀ v ∈ e.vars, s.get? v = t.get? v) →
    e.value s [] = e.value t []
  | .variable v, h => h v (by simp [vars])
  | .constant _, _ => rfl
  | .bound v, h => by
      simp only [value, OrdMap.contains]
      rw [h v (by simp [vars])]
  | .existence _ _, _ => rfl
  | .unary _ e, h => by
      simp only [value]
      rw [value_congr e h]
  | .binary l _ r, h => by
      simp only [value, List.take_nil, List.drop_nil]
      rw [value_congr l fun v hv => h v (OrdSet.mem_union.2 (.inl hv)),
        value_congr r fun v hv => h v (OrdSet.mem_union.2 (.inr hv))]
  | .call _ args, h => by
      simp only [value]
      rw [values_congr args h]
  | .aggregate _, _ => rfl

theorem values_congr : ∀ l : List Expression, (∀ v ∈ varsOf l, s.get? v = t.get? v) →
    values s l [] = values t l []
  | [], _ => rfl
  | e :: rest, h => by
      simp only [values, List.take_nil, List.drop_nil]
      rw [value_congr e fun v hv => h v (OrdSet.mem_union.2 (.inl hv)),
        values_congr rest fun v hv => h v (OrdSet.mem_union.2 (.inr hv))]

end

end Expression

/-! ## What filters keep -/

namespace Operator

section Keeps

variable {γ : Type} {op : Operator γ} {s t : Solution}

/-- Whether a filter without nested plans keeps a solution. -/
def keeps (op : Operator γ) (s : Solution) : Bool :=
  match op with
  | .filter f => f.condition.holds [] s
  | .ruleFilter equalities => satisfiesAll equalities s
  | _ => true

/-- The decision depends on the variables that the operator mentions. -/
theorem keeps_congr (h : ∀ v ∈ op.reads, s.get? v = t.get? v) : op.keeps s = op.keeps t := by
  cases op with
  | filter f =>
      change f.condition.holds [] s = f.condition.holds [] t
      unfold Expression.holds
      rw [Expression.value_congr f.condition h]
  | ruleFilter equalities =>
      change satisfiesAll equalities s = satisfiesAll equalities t
      have hitem (e : Item × Item) (he : e ∈ equalities) (i : Item) (hi : i ∈ [e.1, e.2]) :
          s.resolve i = t.resolve i := by
        cases i with
        | term a => rfl
        | var v => exact h v (Item.mem_vars.2 (List.mem_flatMap.2 ⟨e, he, hi⟩))
      unfold satisfiesAll
      rw [Bool.eq_iff_iff, List.all_eq_true, List.all_eq_true]
      refine forall₂_congr fun e he => ?_
      rw [hitem e he e.1 (by simp), hitem e he e.2 (by simp)]
  | _ => rfl

@[simp] theorem keeps_withNested {δ : Type} (op : Operator γ) (nested : List (Nat × δ)) :
    (op.withNested nested).keeps = op.keeps := by
  cases op <;> rfl

end Keeps

variable {op : Operator (Except Error (List Solution))} {src : Source} {id : OperatorId}
  {operands : Operands} {rows : List Row}

/-- A filter without nested plans that succeeds has read solutions, and emits those that it
keeps. -/
theorem emit_filters (hop : Graph.Filters op) (h : op.emit src id operands = .ok rows) :
    ∃ found : List Solution, operands.rows = found.map .solution ∧
      rows = (found.filter op.keeps).map .solution ∧
        ∀ (id' : OperatorId) (l : List (Nat × List Solution)),
          op.emit src id' (solutionOperands l) =
          .ok (((l.flatMap Prod.snd).filter op.keeps).map .solution) := by
  rcases hop.eq_filter_or with ⟨f, rfl⟩ | ⟨equalities, rfl⟩
  · rw [emit] at h
    cases hfound : expectSolutions id operands.rows with
    | error e =>
        rw [hfound] at h
        cases h
    | ok found =>
        -- there is no plan for any existence pattern
        have hnone : nestedSolutions f.nested 0 f.condition.existencePatterns = .ok [] := by
          cases hpatterns : f.condition.existencePatterns with
          | nil => rfl
          | cons p rest =>
              have hnested : f.nested = [] := hop.2
              rw [hfound, hpatterns, hnested] at h
              cases h
        rw [hfound, hnone] at h
        exact ⟨found, eq_map_of_expectSolutions hfound, (Except.ok.inj h).symm,
          fun id' l => emit_filter hnone⟩
  · change (expectSolutions id operands.rows).map _ = _ at h
    obtain ⟨found, hfound, rfl⟩ := exists_of_map_expectSolutions h
    exact ⟨found, hfound, rfl, fun id' l => emit_ruleFilter equalities⟩

end Operator

/-! ## Decisions about joined solutions -/

/-- The decision is the same for everything that the solution is extended to. -/
def Solution.Settles (keep : Solution → Bool) (s : Solution) : Prop :=
  ∀ m : Solution, (∀ v t, s.get? v = some t → m.get? v = some t) → keep m = keep s

/-- A solution that binds all variables that a filter mentions settles what it decides. -/
theorem Operator.settles_keeps {γ : Type} {op : Operator γ} {s : Solution}
    (h : ∀ v ∈ op.reads, v ∈ s.keySet) : s.Settles op.keeps := fun m hm =>
  keeps_congr fun v hv => by
    obtain ⟨t, ht⟩ := Solution.mem_keySet.1 (h v hv)
    rw [ht, hm v t ht]

section Joins

variable {keep : Solution → Bool} {l r : List Solution} {s t m : Solution}

/-- A union binds what both solutions bind. -/
theorem Solution.le_of_union? (h : s.union? t = some m) :
    (∀ v a, s.get? v = some a → m.get? v = some a) ∧
      ∀ v a, t.get? v = some a → m.get? v = some a := by
  have hmem : m ∈ joinSolutions [s] [t] := by simp [joinSolutions_eq, h]
  obtain ⟨a, ha, b, hb, hle, hle', -⟩ := le_of_mem_joinSolutions hmem
  rw [List.mem_singleton] at ha hb
  exact ⟨ha ▸ hle, hb ▸ hle'⟩

theorem filter_joinSolutions_left (h : ∀ s ∈ l, s.Settles keep) :
    (joinSolutions l r).filter keep = joinSolutions (l.filter keep) r := by
  rw [joinSolutions_eq, joinSolutions_eq]
  refine filter_flatMap_of_forall fun s hs m hm => ?_
  obtain ⟨t, -, ht⟩ := List.mem_filterMap.1 hm
  exact h s hs m (Solution.le_of_union? ht).1

theorem filter_joinSolutions_right (h : ∀ t ∈ r, t.Settles keep) :
    (joinSolutions l r).filter keep = joinSolutions l (r.filter keep) := by
  rw [joinSolutions_eq, joinSolutions_eq, List.filter_flatMap]
  refine List.flatMap_congr fun s _ => ?_
  rw [List.filter_filterMap, List.filterMap_filter]
  refine List.filterMap_congr fun t ht => ?_
  cases hunion : s.union? t with
  | none => simp
  | some m =>
      have hkeep := h t ht m (Solution.le_of_union? hunion).2
      simp [Option.filter, hkeep]

theorem filter_leftJoinSolutions (h : ∀ s ∈ l, s.Settles keep) :
    (leftJoinSolutions l r).filter keep = leftJoinSolutions (l.filter keep) r := by
  refine filter_flatMap_of_forall fun s hs m hm => ?_
  dsimp only at hm
  split at hm
  · rw [List.mem_singleton.1 hm]
  · obtain ⟨t, ht, rfl⟩ := List.mem_map.1 hm
    have hunion : s.union? t = some (s.merge t) := if_pos (List.mem_filter.1 ht).2
    exact h s hs _ (Solution.le_of_union? hunion).1

/-- The parts of a joined solution settle what they settle by themselves. -/
theorem settles_of_mem_joinMany {α : Type} {rows : α → List Solution} {l : List α} {a : α}
    (ha : a ∈ l) (h : ∀ s ∈ rows a, s.Settles keep) (hs : s ∈ joinMany (l.map rows)) :
    s.Settles keep := by
  obtain ⟨part, hpart, hle⟩ : ∃ part ∈ rows a, ∀ v t, part.get? v = some t → s.get? v = some t := by
    induction l generalizing s with
    | nil => cases ha
    | cons b rest ih =>
        rw [List.map_cons, joinMany_cons] at hs
        obtain ⟨x, hx, y, hy, hle, hle', -⟩ := le_of_mem_joinSolutions hs
        rcases List.mem_cons.1 ha with rfl | ha
        · exact ⟨x, hx, hle⟩
        · obtain ⟨part, hpart, hparts⟩ := ih ha hy
          exact ⟨part, hpart, fun v t hv => hle' v t (hparts v t hv)⟩
  intro m hm
  rw [h part hpart m fun v t hv => hm v t (hle v t hv), h part hpart s hle]

/-- The filter of a join can be applied to some of the lists that are joined. -/
theorem filter_joinMany {α : Type} {rows : α → List Solution} {here : α → Bool} {l : List α}
    (h : ∀ a ∈ l, here a = true → ∀ s ∈ rows a, s.Settles keep) (hsome : ∃ a ∈ l, here a = true) :
    (joinMany (l.map rows)).filter keep =
      joinMany (l.map fun a => if here a then (rows a).filter keep else rows a) := by
  induction l with
  | nil =>
      obtain ⟨a, ha, -⟩ := hsome
      cases ha
  | cons a rest ih =>
      have hrest := ih fun b hb => h b (List.mem_cons_of_mem _ hb)
      rw [List.map_cons, List.map_cons, joinMany_cons, joinMany_cons]
      by_cases hothers : ∃ b ∈ rest, here b = true
      · obtain ⟨b, hb, hhere⟩ := hothers
        have hsettled (s : Solution) (hs : s ∈ joinMany (rest.map rows)) : s.Settles keep :=
          settles_of_mem_joinMany hb (h b (List.mem_cons_of_mem _ hb) hhere) hs
        rw [← hrest ⟨b, hb, hhere⟩, ← filter_joinSolutions_right hsettled]
        split
        · next ha =>
          rw [← filter_joinSolutions_left (h a List.mem_cons_self ha), List.filter_filter]
          simp only [Bool.and_self]
        · rfl
      · have ha : here a = true := by
          obtain ⟨b, hb, hhere⟩ := hsome
          rcases List.mem_cons.1 hb with rfl | hb
          · exact hhere
          · exact absurd ⟨b, hb, hhere⟩ hothers
        rw [if_pos ha, filter_joinSolutions_left (h a List.mem_cons_self ha)]
        refine congrArg (fun lists => joinSolutions _ (joinMany lists)) ?_
        exact List.map_congr_left fun b hb => (if_neg fun hb' => hothers ⟨b, hb, hb'⟩).symm

end Joins

/-! ## Filters of what operators emit -/

/-- The solutions on some operands, those that a filter keeps. -/
def sifted (keep : Solution → Bool) (here : Nat → Bool) (l : List (Nat × List Solution)) :
    List (Nat × List Solution) :=
  l.map fun o => (o.1, if here o.1 then o.2.filter keep else o.2)

/-- A filter above the operator can be replaced by filters on some of its operands: on all operands
of a union, on the first operand of a left join, and on any operands of a join, where the solutions
settle what is decided. -/
inductive Operator.Divides {γ : Type} (here : Nat → Bool) (settled : Nat → Prop) : Operator γ → Prop
  | union (h : ∀ k, here k = true) : Divides here settled .union
  | optional (hzero : ∀ k, here k = (k == 0)) (h : settled 0) : Divides here settled .optional
  | join (h : ∀ k, here k = true → settled k) : Divides here settled .join

namespace Operator.Divides

variable {γ δ : Type} {op : Operator γ} {here : Nat → Bool} {settled settled' : Nat → Prop}

theorem imp (h : op.Divides here settled) (hsettled : ∀ k, settled k → settled' k) :
    op.Divides here settled' := by
  cases h with
  | union h => exact .union h
  | optional hzero h => exact .optional hzero (hsettled 0 h)
  | join h => exact .join fun k hk => hsettled k (h k hk)

theorem withNested (h : op.Divides here settled) (nested : List (Nat × δ)) :
    (op.withNested nested).Divides here settled := by
  cases h with
  | union h => exact .union h
  | optional hzero h => exact .optional hzero h
  | join h => exact .join h

end Operator.Divides

section Emission

variable {op : Operator (Except Error (List Solution))} {here : Nat → Bool} (src : Source)
  (id : OperatorId)

/-- Such an operator that emits solutions reads solutions. -/
theorem Operator.Divides.solution_of_mem {src id} {settled : Nat → Prop}
    (h : op.Divides here settled)
    {operands : Operands} (hnodup : (operands.map Prod.fst).Nodup) {rows : List Row}
    (hemit : op.emit src id operands = .ok rows) (hrows : ∀ row ∈ rows, ∃ s, row = .solution s) :
    ∀ o ∈ operands, ∀ row ∈ o.2, ∃ s, row = .solution s := by
  have hexpected {l : List Row} {found : List Solution} (hl : expectSolutions id l = .ok found) :
      ∀ row ∈ l, ∃ s, row = .solution s := by
    intro row hrow
    rw [eq_map_of_expectSolutions hl, List.mem_map] at hrow
    obtain ⟨s, -, rfl⟩ := hrow
    exact ⟨s, rfl⟩
  intro o ho
  cases h with
  | union =>
      obtain rfl := Except.ok.inj hemit
      exact fun row hrow => hrows row (List.mem_flatMap.2 ⟨o, ho, hrow⟩)
  | optional =>
      obtain ⟨left, right, hleft, hright, -⟩ := Operator.exists_of_pairwise_eq_ok hemit
      intro row hrow
      by_cases hk : o.1 = 0
      · refine hexpected hleft row ?_
        have hfirst := lookup_of_mem_of_nodup hnodup (show (o.1, o.2) ∈ operands from ho)
        rwa [Operands.on, ← hk, hfirst]
      · refine hexpected hright row (List.mem_flatMap.2 ⟨o, List.mem_filter.2 ⟨ho, ?_⟩, hrow⟩)
        simpa using hk
  | join =>
      rw [Operator.emit] at hemit
      cases hlists : operands.mapM fun o => expectSolutions id o.2 with
      | error e =>
          rw [hlists] at hemit
          cases hemit
      | ok lists =>
          obtain ⟨found, -, hfound⟩ := exists_of_forall₂ (forall₂_of_mapM_ok hlists) ho
          exact hexpected hfound

/-- The operator emits what the filter would have kept. -/
theorem Operator.Divides.emit_sifted {keep : Solution → Bool} {l : List (Nat × List Solution)}
    (h : op.Divides here fun k => ∀ o ∈ l, o.1 = k → ∀ s ∈ o.2, s.Settles keep)
    (hsome : ∃ o ∈ l, here o.1 = true) : ∃ found : List Solution,
      op.emit src id (solutionOperands l) = .ok (found.map .solution) ∧
        op.emit src id (solutionOperands (sifted keep here l)) =
          .ok ((found.filter keep).map .solution) := by
  cases h with
  | union hall =>
      refine ⟨_, emit_union, emit_union.trans ?_⟩
      rw [sifted, List.flatMap_map, List.filter_flatMap]
      simp only [hall, if_true]
  | optional hzero hsettled =>
      refine ⟨_, emit_optional, emit_optional.trans ?_⟩
      have hlookup : ((sifted keep here l).lookup 0).getD [] =
          ((l.lookup 0).getD []).filter keep := by
        rw [sifted]
        clear hsettled hsome
        induction l with
        | nil => rfl
        | cons o rest ih =>
            rw [List.map_cons, List.lookup_cons, List.lookup_cons]
            cases hk : (0 : Nat) == o.1 with
            | true =>
                have hhere : here o.1 = true := by rw [hzero, BEq.comm, hk]
                simp [hhere]
            | false => exact ih
      have hothers : (sifted keep here l).filter (·.1 != 0) = l.filter (·.1 != 0) := by
        rw [sifted, List.filter_map]
        refine (List.map_congr_left fun o ho => ?_).trans (List.map_id _)
        have hk : (o.1 == 0) = false := by simpa using (List.mem_filter.1 ho).2
        rw [hzero, hk]
        rfl
      rw [hlookup, hothers, filter_leftJoinSolutions]
      intro s hs
      cases hfirst : l.lookup 0 with
      | none => simp [hfirst] at hs
      | some rows =>
          rw [hfirst] at hs
          exact hsettled _ (lookup_mem hfirst) rfl s hs
  | join hsettled =>
      refine ⟨_, emit_join, emit_join.trans ?_⟩
      obtain ⟨o, ho, hhere⟩ := hsome
      have hne : l ≠ [] := List.ne_nil_of_mem ho
      rw [sifted, List.map_map, joinAll_eq_joinMany (by simpa using hne),
        joinAll_eq_joinMany (by simpa using hne),
        filter_joinMany (fun o ho hhere => hsettled o.1 hhere o ho rfl) ⟨o, ho, hhere⟩]
      rfl

end Emission

end QuadAlgebra
