import QuadAlgebra.Proofs.Semantics.Emission

/-!
# Operators on bags

Most operators do not care about the order in which rows arrive: if the rows on their operands are
permuted, then so are the rows that they emit, and nothing fails that did not fail before
(`Operator.emit_perm`). The exceptions cut off rows by place or number them, and groups whose
aggregates depend on the order.
-/

namespace QuadAlgebra

open List (Perm Forall₂)

/-! ## Computations with related outcomes -/

section Related

variable {α β α' β' : Type} {R : α → α' → Prop} {S : β → β' → Prop}

/-- Whatever the first computation returns, the second one returns something that is related to
it. -/
def OkRelated (R : α → α' → Prop) (x : Except Error α) (y : Except Error α') : Prop :=
  ∀ a, x = .ok a → ∃ a', y = .ok a' ∧ R a a'

theorem OkRelated.ok {a : α} {a' : α'} (h : R a a') : OkRelated R (.ok a) (.ok a') := by
  rintro _ ⟨⟩
  exact ⟨a', rfl, h⟩

theorem OkRelated.bind {x : Except Error α} {y : Except Error α'} {f : α → Except Error β}
    {f' : α' → Except Error β'} (h : OkRelated R x y)
    (hf : ∀ a a', R a a' → OkRelated S (f a) (f' a')) : OkRelated S (x >>= f) (y >>= f') := by
  intro b hb
  cases x with
  | error e => cases hb
  | ok a =>
      obtain ⟨a', rfl, ha⟩ := h a rfl
      exact hf a a' ha b hb

theorem OkRelated.map {x : Except Error α} {y : Except Error α'} {f : α → β} {f' : α' → β'}
    (h : OkRelated R x y) (hf : ∀ a a', R a a' → S (f a) (f' a')) :
    OkRelated S (x.map f) (y.map f') := by
  intro b hb
  cases x with
  | error e => cases hb
  | ok a =>
      obtain ⟨a', rfl, ha⟩ := h a rfl
      obtain rfl := Except.ok.inj hb
      exact ⟨f' a', rfl, hf a a' ha⟩

/-- A computation for each element of a list, in whatever order. -/
theorem okRelated_mapM_perm {l l' : List α} (f : α → Except Error β) (h : l.Perm l') :
    OkRelated Perm (l.mapM f) (l'.mapM f) := by
  induction h with
  | nil => exact .ok (.refl _)
  | cons a _ ih =>
      rw [List.mapM_cons, List.mapM_cons]
      refine OkRelated.bind (R := Eq) (fun b hb => ⟨b, hb, rfl⟩) ?_
      rintro b _ rfl
      exact ih.bind fun bs bs' hbs => .ok (hbs.cons b)
  | swap a b l =>
      simp only [List.mapM_cons]
      intro r hr
      cases ha : f a with
      | error e => cases hb : f b <;> simp [ha, hb, bind, Except.bind] at hr
      | ok x =>
          cases hb : f b with
          | error e => simp [hb, bind, Except.bind] at hr
          | ok y =>
              cases hl : l.mapM f with
              | error e => simp [ha, hb, hl, bind, Except.bind] at hr
              | ok xs =>
                  simp only [ha, hb, hl, bind, Except.bind, pure, Except.pure] at hr ⊢
                  obtain rfl := Except.ok.inj hr
                  exact ⟨_, rfl, .swap _ _ _⟩
  | trans _ _ ih ih' =>
      intro r hr
      obtain ⟨r', hr', hperm⟩ := ih r hr
      obtain ⟨r'', hr'', hperm'⟩ := ih' r' hr'
      exact ⟨r'', hr'', hperm.trans hperm'⟩

theorem okRelated_mapM {l : List α} {l' : List α'} {f : α → Except Error β}
    {f' : α' → Except Error β'} (h : Forall₂ (fun a a' => OkRelated S (f a) (f' a')) l l') :
    OkRelated (Forall₂ S) (l.mapM f) (l'.mapM f') := by
  induction h with
  | nil => exact .ok .nil
  | cons ha _ ih =>
      rw [List.mapM_cons, List.mapM_cons]
      exact ha.bind fun b b' hb => ih.bind fun bs bs' hbs => .ok (.cons hb hbs)

end Related

/-! ## Operators that ignore the order of rows -/

/-- The value of the aggregate is the same for all orders of the solutions. -/
def Aggregate.IgnoresOrder (a : Aggregate) : Prop :=
  ∀ l r : List Solution, l.Perm r → a.value l = a.value r

namespace Operator

/-- What the operator emits does not depend on the order of the rows, as a bag. -/
def IgnoresOrder {γ : Type} : Operator γ → Prop
  | .limit _ | .offset _ | .construct _ => False
  | .group _ aggregates => ∀ a ∈ aggregates, a.2.IgnoresOrder
  | _ => True

@[simp] theorem ignoresOrder_withNested {γ δ : Type} (op : Operator γ) (nested : List (Nat × δ)) :
    (op.withNested nested).IgnoresOrder ↔ op.IgnoresOrder := by
  cases op <;> rfl

end Operator

theorem groupSolutions_perm {keys : List Variable} {aggregates : List (Variable × Aggregate)}
    (h : ∀ a ∈ aggregates, a.2.IgnoresOrder) {l r : List Solution} (hperm : l.Perm r) :
    (groupSolutions keys aggregates l).Perm (groupSolutions keys aggregates r) := by
  have hgroup (key : List (Option Term)) :
      groupSolution keys aggregates key (l.filter (groupKey keys · == key)) =
        groupSolution keys aggregates key (r.filter (groupKey keys · == key)) := by
    have hvalues : (aggregates.map fun a => (a.1, a.2.value (l.filter (groupKey keys · == key)))) =
        aggregates.map fun a => (a.1, a.2.value (r.filter (groupKey keys · == key))) :=
      List.map_congr_left fun a ha => by rw [h a ha _ _ (hperm.filter _)]
    unfold groupSolution
    rw [hvalues]
  unfold groupSolutions
  simp only [hgroup, hperm.isEmpty_eq]
  refine Perm.map _ ?_
  split
  · exact .refl _
  · exact distinctOf_perm (hperm.map _)

/-- The same operands, with the rows on each of them in another order. -/
def Operands.Alike (l r : Operands) : Prop := Forall₂ (fun o o' => o.1 = o'.1 ∧ o.2.Perm o'.2) l r

namespace Operands.Alike

variable {l r : Operands}

theorem rows (h : l.Alike r) : l.rows.Perm r.rows := by
  induction h with
  | nil => exact .refl _
  | cons ho _ ih => exact ho.2.append ih

theorem on (h : l.Alike r) (k : Nat) : (l.on k).Perm (r.on k) := by
  unfold Operands.on
  induction h with
  | nil => exact .refl _
  | @cons o o' _ _ ho _ ih =>
      obtain ⟨hk, hrows⟩ := ho
      obtain ⟨j, rows⟩ := o
      obtain ⟨j', rows'⟩ := o'
      obtain rfl : j = j' := hk
      by_cases hkj : k = j
      · simpa [List.lookup_cons, hkj] using hrows
      · have hkj' : (k == j) = false := by simpa using hkj
        simpa [List.lookup_cons, hkj'] using ih

theorem except (h : l.Alike r) (k : Nat) : (l.except k).Perm (r.except k) := by
  unfold Operands.except
  induction h with
  | nil => exact .refl _
  | cons ho _ ih =>
      obtain ⟨hk, hrows⟩ := ho
      rw [List.filter_cons, List.filter_cons, hk]
      split
      · exact hrows.append ih
      · exact ih

end Operands.Alike

variable {id : OperatorId} {l r : Operands}

theorem expectSolutions_perm {l r : List Row} (h : l.Perm r) :
    OkRelated Perm (expectSolutions id l) (expectSolutions id r) := okRelated_mapM_perm _ h

theorem joinAll_perm {found lists : List (List Solution)} (h : Forall₂ Perm found lists) :
    (joinAll found).Perm (joinAll lists) := by
  cases h with
  | nil => exact .refl _
  | cons hl hrest =>
      rw [joinAll_eq_joinMany (List.cons_ne_nil _ _), joinAll_eq_joinMany (List.cons_ne_nil _ _)]
      exact forall₂_perm_joinMany (.cons hl hrest)

/-- Where rows arrive in another order, an operator that ignores the order succeeds if it did
before, with its rows in another order. -/
theorem Operator.emit_perm {op : Operator (Except Error (List Solution))} (hop : op.IgnoresOrder)
    (src : Source) (h : l.Alike r) : OkRelated Perm (op.emit src id l) (op.emit src id r) := by
  have hsolutions (f : List Solution → List Row)
      (hf : ∀ l r : List Solution, l.Perm r → (f l).Perm (f r)) :
      OkRelated Perm ((expectSolutions id l.rows).map f) ((expectSolutions id r.rows).map f) :=
    (expectSolutions_perm h.rows).map hf
  have hsteps (f : List Solution → List Solution)
      (hf : ∀ l r : List Solution, l.Perm r → (f l).Perm (f r)) :
      OkRelated Perm ((expectSolutions id l.rows).map fun rows => (f rows).map Row.solution)
        ((expectSolutions id r.rows).map fun rows => (f rows).map Row.solution) :=
    hsolutions _ fun l r h => (hf l r h).map _
  have hpairwise (f : List Solution → List Solution → List Solution)
      (hf : ∀ {l l' r r' : List Solution}, l.Perm l' → r.Perm r' → (f l r).Perm (f l' r')) :
      OkRelated Perm (do
        let left ← expectSolutions id (l.on 0)
        let right ← expectSolutions id (l.except 0)
        return (f left right).map Row.solution) (do
        let left ← expectSolutions id (r.on 0)
        let right ← expectSolutions id (r.except 0)
        return (f left right).map Row.solution) :=
    (expectSolutions_perm (h.on 0)).bind fun _ _ hleft =>
      (expectSolutions_perm (h.except 0)).bind fun _ _ hright => .ok ((hf hleft hright).map _)
  have hquads (f : Quad → Action) : OkRelated Perm
      ((expectRows id .quads Row.quad? l.rows).map fun qs => qs.map (Row.action ∘ f))
      ((expectRows id .quads Row.quad? r.rows).map fun qs => qs.map (Row.action ∘ f)) :=
    (okRelated_mapM_perm _ h.rows).map fun _ _ hqs => hqs.map _
  cases op with
  | root => exact .ok (.refl _)
  | result | union | window => exact .ok h.rows
  | distinct | indexDistinct => exact .ok (distinctOf_perm h.rows)
  | limit | offset | construct => exact hop.elim
  | scan | probe => exact hsteps _ fun _ _ hl => joinSolutions_perm hl (.refl _)
  | join =>
      have hoperands : Forall₂ (fun o o' : Nat × List Row =>
          OkRelated Perm (expectSolutions id o.2) (expectSolutions id o'.2)) l r :=
        h.imp fun _ _ ho => expectSolutions_perm ho.2
      exact (okRelated_mapM hoperands).bind fun _ _ hlists => .ok ((joinAll_perm hlists).map _)
  | optional => exact hpairwise _ leftJoinSolutions_perm
  | minus => exact hpairwise _ subtractSolutions_perm
  | filter f =>
      refine (expectSolutions_perm h.rows).bind fun rows rows' hrows => ?_
      exact OkRelated.bind (R := Eq) (fun b hb => ⟨b, hb, rfl⟩) fun found found' he =>
        .ok (he ▸ (hrows.filter _).map _)
  | ruleFilter => exact hsteps _ fun _ _ hl => hl.filter _
  | projection | bind | replaceVar => exact hsteps _ fun _ _ hl => hl.map _
  | sort => exact hsteps _ fun l r hl =>
      (stableSort_perm _ l).trans (hl.trans (stableSort_perm _ r).symm)
  | group keys aggregates => exact hsteps _ fun _ _ hl => groupSolutions_perm hop hl
  | generate | constructAtom => exact hsolutions _ fun _ _ hl => (hl.filterMap _).map _
  | matchTriple | matchAtom =>
      exact (okRelated_mapM_perm _ h.rows).bind fun _ _ hl => .ok ((hl.filterMap _).map _)
  | insert | delete => exact hquads _
  | command c =>
      refine .ok ?_
      rw [h.rows.isEmpty_eq]
  | service => exact fun _ h => nomatch h
  | describe resources =>
      refine hsolutions _ fun l r hl => Perm.map _ ?_
      refine Perm.flatMap (distinctOf_perm ?_) fun _ _ => .refl _
      exact hl.flatMap fun _ _ => .refl _

end QuadAlgebra
