import QuadAlgebra.Proofs.Planning.Pairs

/-!
# Loops

A loop keeps the pairs that it knows. In every round it takes the known pairs of terms with
different values, extends each by one more step, and feeds the pairs back to the round after. What
it knows settles at the pairs that can be reached that way (`LoopIn.settles`), and what it feeds
back comes to rest, because there are only finitely many pairs of nodes (`LoopIn.rests`).

All pairs of the transitive closure are reached if no two nodes are different terms of equal value
(`reaches_eq_transGen`). Otherwise some may be missing: a known pair of different terms that have
the same value is not extended.
-/

namespace QuadAlgebra

open Relation (TransGen)
open Solution (Ends)

/-! ## Pairs -/

namespace Solution

variable {s o m v : Variable} {a b c c' : Term} {R : Term → Term → Prop} {r : Solution}

/-- The solution that binds two variables and nothing else. -/
def pair (s o : Variable) (a b : Term) : Solution := (OrdMap.singleton s a).insert o b

theorem get?_pair : (pair s o a b).get? v =
    if v = o then some b else if v = s then some a else none := by
  rw [pair, get?_insert, OrdMap.get?_singleton]

/-- The solutions for the ends of a relation between two variables. -/
theorem ends_pair_iff (h : s ≠ o) :
    Ends (.var s) (.var o) R r ↔ ∃ a b, R a b ∧ r = pair s o a b := by
  constructor
  · intro hr
    obtain ⟨⟨a, b, ha, hb, hab⟩, hon⟩ := ends_iff.1 hr
    refine ⟨a, b, hab, eq_of_get? fun v => ?_⟩
    rw [get?_pair]
    split
    · next hv => exact hv ▸ hb
    · next ho =>
      split
      · next hv => exact hv ▸ ha
      · next hs => exact on_eq_self_iff.1 hon v (by simp [ho, hs])
  · rintro ⟨a, b, hab, rfl⟩
    refine ends_iff.2 ⟨⟨a, b, ?_, ?_, hab⟩, on_eq_self_iff.2 fun v hv => ?_⟩
    · simp [get?_pair, h]
    · simp [get?_pair]
    · simp only [List.mem_cons, Item.var.injEq, List.not_mem_nil, or_false, not_or] at hv
      rw [get?_pair, if_neg hv.2, if_neg hv.1]

theorem pair_injective (h : s ≠ o) {a' b' : Term} (he : pair s o a b = pair s o a' b') :
    a = a' ∧ b = b' := by
  have hs := congrArg (fun r : Solution => r.get? s) he
  have ho := congrArg (fun r : Solution => r.get? o) he
  simp only [get?_pair, if_neg h] at hs ho
  exact ⟨by simpa using hs, by simpa using ho⟩

theorem ends_pair (h : s ≠ o) : Ends (.var s) (.var o) R (pair s o a b) ↔ R a b := by
  rw [ends_pair_iff h]
  constructor
  · rintro ⟨a', b', hab, he⟩
    obtain ⟨rfl, rfl⟩ := pair_injective h he
    exact hab
  · exact fun hab => ⟨a, b, hab, rfl⟩

/-- Two pairs that meet in a variable. -/
theorem compatible_pair (hso : s ≠ o) (hmo : m ≠ o) :
    (pair s m a c).compatible (pair m o c' b) = true ↔ c = c' := by
  rw [compatible_iff]
  constructor
  · exact fun h => h m c c' (by simp [get?_pair]) (by simp [get?_pair, hmo])
  · rintro rfl v x y hx hy
    rw [get?_pair] at hx hy
    grind

theorem merge_pair (hsm : s ≠ m) (hso : s ≠ o) (hmo : m ≠ o) :
    ((pair s m a c).merge (pair m o c b)).on [.var s, .var o] = pair s o a b := by
  refine eq_of_get? fun v => ?_
  simp only [get?_on, get?_merge, get?_pair, List.mem_cons, Item.var.injEq, List.not_mem_nil]
  grind

end Solution

/-- A single variable renamed. -/
theorem Renaming.get?_solution_singleton {m o : Variable} (r : Solution) (v : Variable) :
    (Renaming.solution (OrdMap.singleton m o) r).get? v =
      if v = m then r.get? o else if v = o then none else r.get? v := by
  have hvalues : OrdMap.values (OrdMap.singleton m o) = [o] := rfl
  rw [Renaming.get?_solution, OrdMap.get?_singleton, hvalues]
  by_cases hv : v = m
  · simp [hv]
  · simp [hv]

theorem Renaming.solution_pair {s m o : Variable} {a c : Term} (hso : s ≠ o) :
    Renaming.solution (OrdMap.singleton m o) (.pair s o a c) = .pair s m a c := by
  refine Solution.eq_of_get? fun v => ?_
  rw [Renaming.get?_solution_singleton]
  simp only [Solution.get?_pair]
  grind

theorem Expression.holds_notEqual {s m : Variable} {a c : Term} (h : s ≠ m) :
    (notEqual (.variable s) (.variable m)).holds [] (.pair s m a c) = !a.equalValue c := by
  have hs : (Solution.pair s m a c).get? s = some a := by simp [Solution.get?_pair, h]
  have hm : (Solution.pair s m a c).get? m = some c := by simp [Solution.get?_pair]
  have hbool : ∀ b : Bool, (Term.boolean b).effectiveBool? = some b := by decide
  simp [holds, notEqual, value, hs, hm, Symbol.apply, hbool]

/-! ## Loops -/

/-- No two nodes are different terms of equal value. -/
def DistinctValues (triples : List Triple) : Prop :=
  ∀ a b, IsNode triples a → IsNode triples b → a.equalValue b = true → a = b

/-- The terms that occur as a subject or an object. -/
def nodesOf (triples : List Triple) : List Term := triples.flatMap fun t => [t.subject, t.object]

theorem mem_nodesOf {triples : List Triple} {a : Term} :
    a ∈ nodesOf triples ↔ IsNode triples a := by
  simp [nodesOf, IsNode, eq_comm]

/-- The pairs that can be reached in a relation by extending pairs of terms with different
values. -/
inductive Reaches (R : Term → Term → Prop) (a : Term) : Term → Prop
  | step {b : Term} : R a b → Reaches R a b
  | extend {c b : Term} : Reaches R a c → a.equalValue c = false → R c b → Reaches R a b

/-- The pairs that are reached by extending another one. -/
def Extended (R : Term → Term → Prop) (a b : Term) : Prop :=
  ∃ c, Reaches R a c ∧ a.equalValue c = false ∧ R c b

theorem Extended.reaches {R : Term → Term → Prop} {a b : Term} (h : Extended R a b) :
    Reaches R a b := by
  obtain ⟨c, hac, hne, hcb⟩ := h
  exact .extend hac hne hcb

theorem Reaches.transGen {R : Term → Term → Prop} {a b : Term} (h : Reaches R a b) :
    TransGen R a b := by
  induction h with
  | step hab => exact .single hab
  | extend _ _ hcb ih => exact ih.tail hcb

theorem OnNodes.reaches {R : Term → Term → Prop} {triples : List Triple}
    (h : OnNodes triples R) : OnNodes triples (Reaches R) := fun a b hab =>
  h.transGen a b hab.transGen

/-- Without different nodes of equal value the whole closure is reached: a step from a pair of equal
terms is a first step. -/
theorem reaches_eq_transGen {R : Term → Term → Prop} {triples : List Triple}
    (hR : OnNodes triples R) (hvalues : DistinctValues triples) : Reaches R = TransGen R := by
  funext a b
  refine propext ⟨Reaches.transGen, fun hab => ?_⟩
  induction hab with
  | single hab => exact .step hab
  | @tail c b hac hcb ih =>
      cases hne : a.equalValue c with
      | true =>
          have hnodes := hR.transGen a c hac
          obtain rfl := hvalues a c hnodes.1 hnodes.2 hne
          exact .step hcb
      | false => exact .extend ih hne hcb

/-- The operators of a loop between two variables from its union on to its join, with what these two
read. -/
structure LoopFront (G : Graph Plan) (s o step : Variable) (first : Nat)
    (producers parts : List Input) : Prop where
  union : G.Has first .union producers
  known : G.Has (first + 1) .distinct [⟨first, 0, false⟩]
  renamed : G.Has (first + 2) (.replaceVar (OrdMap.singleton step o)) [⟨first + 1, 0, false⟩]
  unequal : G.Has (first + 3) (.ofCondition (.notEqual (.variable s) (.variable step)))
    [⟨first + 2, 0, false⟩]
  join : G.Has (first + 4) .join parts

/-- The operators of a loop between two variables. The last one feeds the union back. -/
structure LoopIn (pp : PathPlanner) (G : Graph Plan) (s o step : Variable)
    (base : OperatorId) (first : Nat) (out last : OperatorId) : Prop
    extends LoopFront G s o step first [⟨base, 0, false⟩, ⟨last, 1, true⟩]
      [⟨first + 3, 0, false⟩, ⟨out, 1, false⟩] where
  back : G.Has last (.projection (pp.endpoints (.var s) (.var o))) [⟨first + 4, 0, false⟩]

theorem Graph.leads_of_has {G : Graph Plan} {src : Source} {limit : Nat} {id : OperatorId}
    {op : Operator Plan} {inputs : List Input} (hhas : G.Has id op inputs) (i : Input)
    (hi : i ∈ inputs) : (Plan.opened ⟨G⟩ src limit).Leads i.source id := by
  refine leads_of_mem_inputs ?_ ?_
  · rw [ids_opened]
    exact mem_ids_of_operator? hhas.1
  · rwa [inputs_opened, hhas.2]

namespace LoopIn

variable {src : Source} {graph : Option Term} {pp : PathPlanner} {limit : Nat} {G : Graph Plan}
  {F : Nat → OperatorId → List Solution} {s o step : Variable} {base out last : OperatorId}
  {first : Nat}
  {R : Term → Term → Prop} {r : Solution} {n : Nat} {triples : List Triple}

/-- What is fed back is on a loop. -/
theorem onLoop (h : LoopIn pp G s o step base first out last) (src : Source) (limit : Nat) :
    (Plan.opened ⟨G⟩ src limit).OnLoop last := by
  have hunion : (Plan.opened ⟨G⟩ src limit).Leads last first :=
    Graph.leads_of_has h.union ⟨last, 1, true⟩ (by simp)
  have hknown : (Plan.opened ⟨G⟩ src limit).Leads first (first + 1) :=
    Graph.leads_of_has h.known ⟨first, 0, false⟩ (by simp)
  have hrenamed : (Plan.opened ⟨G⟩ src limit).Leads (first + 1) (first + 2) :=
    Graph.leads_of_has h.renamed ⟨first + 1, 0, false⟩ (by simp)
  have hunequal : (Plan.opened ⟨G⟩ src limit).Leads (first + 2) (first + 3) :=
    Graph.leads_of_has h.unequal ⟨first + 2, 0, false⟩ (by simp)
  have hjoin : (Plan.opened ⟨G⟩ src limit).Leads (first + 3) (first + 4) :=
    Graph.leads_of_has h.join ⟨first + 3, 0, false⟩ (by simp)
  have hback : (Plan.opened ⟨G⟩ src limit).Leads (first + 4) last :=
    Graph.leads_of_has h.back ⟨first + 4, 0, false⟩ (by simp)
  exact .head hunion (.head hknown (.head hrenamed (.head hunequal (.head hjoin (.single hback)))))

theorem mem_known (h : LoopIn pp G s o step base first out last) (hscene : Scene src limit G F) :
    r ∈ F (n + 1) (first + 1) ↔ r ∈ F (n + 1) base ∨ r ∈ F n last := by
  rw [Operator.maps_distinct.mem hscene h.known]
  simp only [exists_eq_right, hscene.mem_union h.union.1, h.union.2]
  simp [Scene.read]

/-- What is fed back are the known pairs of different terms, with one more step behind them. -/
theorem mem_back (h : LoopIn pp G s o step base first out last) (hscene : Scene src limit G F)
    (hpp : pp.ForStore graph) (hso : s ≠ o) (hsm : s ≠ step) (hmo : step ≠ o)
    {S : Term → Term → Prop} (hknown : ∀ r ∈ F (n + 1) (first + 1), Ends (.var s) (.var o) S r)
    (hout : ∀ r ∈ F (n + 1) out, Ends (.var step) (.var o) R r) :
    r ∈ F (n + 1) last ↔ ∃ a c b, .pair s o a c ∈ F (n + 1) (first + 1) ∧
      a.equalValue c = false ∧ .pair step o c b ∈ F (n + 1) out ∧ r = .pair s o a b := by
  have hcondition : Operator.Maps src (.ofCondition (.notEqual (.variable s) (.variable step))) _ :=
    Operator.maps_ofCondition rfl
  have hjoin : ∀ full, full ∈ F (n + 1) (first + 4) ↔ ∃ x ∈ F (n + 1) (first + 3),
      ∃ y ∈ F (n + 1) out, x.compatible y = true ∧ x.merge y = full := by
    intro full
    rw [hscene.mem_join h.join.1 (by simp [h.join.2]), h.join.2]
    simp [Scene.read, joinMany_cons, mem_joinSolutions]
  have hunequal : ∀ x, x ∈ F (n + 1) (first + 3) ↔ ∃ a c, .pair s o a c ∈ F (n + 1) (first + 1) ∧
      a.equalValue c = false ∧ x = .pair s step a c := by
    intro x
    simp only [hcondition.mem hscene h.unequal,
      (Operator.maps_replaceVar _).mem hscene h.renamed]
    constructor
    · rintro ⟨_, ⟨q, hq, rfl⟩, rfl, hholds⟩
      obtain ⟨a, c, -, rfl⟩ := (Solution.ends_pair_iff hso).1 (hknown q hq)
      rw [Renaming.solution_pair hso, Expression.holds_notEqual hsm,
        Bool.not_eq_true'] at hholds
      exact ⟨a, c, hq, hholds, Renaming.solution_pair hso⟩
    · rintro ⟨a, c, hq, hac, rfl⟩
      refine ⟨_, ⟨_, hq, Renaming.solution_pair hso⟩, rfl, ?_⟩
      rw [Expression.holds_notEqual hsm, hac]
      rfl
  simp only [(Operator.maps_projection _).mem hscene h.back, hpp.restrict_endpoints, hjoin]
  constructor
  · rintro ⟨_, ⟨x, hx, y, hy, hcompat, rfl⟩, rfl⟩
    obtain ⟨a, c, hq, hac, rfl⟩ := (hunequal x).1 hx
    obtain ⟨c', b, -, rfl⟩ := (Solution.ends_pair_iff hmo).1 (hout y hy)
    obtain rfl := (Solution.compatible_pair hso hmo).1 hcompat
    exact ⟨a, c, b, hq, hac, hy, Solution.merge_pair hsm hso hmo⟩
  · rintro ⟨a, c, b, hq, hac, hy, rfl⟩
    exact ⟨_, ⟨_, (hunequal _).2 ⟨a, c, hq, hac, rfl⟩, _, hy,
      (Solution.compatible_pair hso hmo).2 rfl, rfl⟩, Solution.merge_pair hsm hso hmo⟩

section Settling

variable (h : LoopIn pp G s o step base first out last) (hscene : Scene src limit G F)
  (hpp : pp.ForStore graph) (hso : s ≠ o) (hsm : s ≠ step) (hmo : step ≠ o)
  (hbase : Settles True F base (Ends (.var s) (.var o) R))
  (hout : Settles True F out (Ends (.var step) (.var o) R))

include h hscene hpp hso hsm hmo hbase hout

/-- By induction on the rounds, nothing but reached pairs is known, and nothing but extended pairs
is fed back. -/
theorem sound : ∀ n, (∀ r ∈ F (n + 1) (first + 1), Ends (.var s) (.var o) (Reaches R) r) ∧
    ∀ r ∈ F n last, Ends (.var s) (.var o) (Extended R) r := by
  have hknown : ∀ n, (∀ r ∈ F n last, Ends (.var s) (.var o) (Extended R) r) →
      ∀ r ∈ F (n + 1) (first + 1), Ends (.var s) (.var o) (Reaches R) r := by
    intro n hback r hr
    rcases (h.mem_known hscene).1 hr with hr | hr
    · exact (hbase.1 _ r hr).mono fun _ _ => .step
    · exact (hback r hr).mono fun _ _ => Extended.reaches
  intro n
  induction n with
  | zero =>
      have hnone : ∀ r ∈ F 0 last, Ends (.var s) (.var o) (Extended R) r := fun r hr => by
        rw [hscene.zero] at hr
        exact absurd hr List.not_mem_nil
      exact ⟨hknown 0 hnone, hnone⟩
  | succ n ih =>
      have hback : ∀ r ∈ F (n + 1) last, Ends (.var s) (.var o) (Extended R) r := by
        intro r hr
        obtain ⟨a, c, b, hac, hne, hcb, rfl⟩ :=
          (h.mem_back hscene hpp hso hsm hmo ih.1 (hout.1 (n + 1))).1 hr
        exact (Solution.ends_pair hso).2 ⟨c, (Solution.ends_pair hso).1 (ih.1 _ hac), hne,
          (Solution.ends_pair hmo).1 (hout.1 _ _ hcb)⟩
      exact ⟨hknown (n + 1) hback, hback⟩

/-- A known pair of terms with different values is fed back with every step behind it. -/
theorem lasts_back {a b c : Term} (hac : Lasts True fun n => .pair s o a c ∈ F (n + 1) (first + 1))
    (hne : a.equalValue c = false) (hcb : R c b) :
    Lasts True fun n => .pair s o a b ∈ F (n + 1) last := by
  refine (hac.and (hout.2 _ ((Solution.ends_pair hmo).2 hcb))).imp fun n hn => ?_
  exact (h.mem_back hscene hpp hso hsm hmo
    (h.sound hscene hpp hso hsm hmo hbase hout n).1 (hout.1 (n + 1))).2
      ⟨a, c, b, hn.1, hne, hn.2, rfl⟩

/-- By induction on the extensions, all pairs that are reached become known. -/
theorem lasts_known {a b : Term} (hab : Reaches R a b) :
    Lasts True fun n => .pair s o a b ∈ F (n + 1) (first + 1) := by
  induction hab with
  | step hab =>
      exact (hbase.2 _ ((Solution.ends_pair hso).2 hab)).imp fun n hn =>
        (h.mem_known hscene).2 (.inl hn)
  | extend _ hne hcb ih =>
      exact (h.lasts_back hscene hpp hso hsm hmo hbase hout ih hne hcb).delay fun n hn =>
        (h.mem_known hscene).2 (.inr hn)

/-- What a loop knows settles at the pairs that are reached. -/
theorem settles : Settles True F (first + 1) (Ends (.var s) (.var o) (Reaches R)) := by
  refine hscene.settles (fun n => (h.sound hscene hpp hso hsm hmo hbase hout n).1) fun r hr => ?_
  obtain ⟨a, b, hab, rfl⟩ := (Solution.ends_pair_iff hso).1 hr
  exact h.lasts_known hscene hpp hso hsm hmo hbase hout hab

/-- What a loop feeds back comes to rest. -/
theorem rests (hR : OnNodes triples R) : Lasts True fun n => F (n + 1) last = F n last := by
  have hback : Settles True F last (Ends (.var s) (.var o) (Extended R)) := by
    refine hscene.settles (fun n => (h.sound hscene hpp hso hsm hmo hbase hout (n + 1)).2)
      fun r hr => ?_
    obtain ⟨a, b, ⟨c, hac, hne, hcb⟩, rfl⟩ := (Solution.ends_pair_iff hso).1 hr
    exact h.lasts_back hscene hpp hso hsm hmo hbase hout
      (h.lasts_known hscene hpp hso hsm hmo hbase hout hac) hne hcb
  refine hscene.rests (l := (nodesOf triples).flatMap fun a => (nodesOf triples).map (.pair s o a))
    h.back.1 (h.onLoop src limit) hback fun r hr => ?_
  obtain ⟨a, b, hab, rfl⟩ := (Solution.ends_pair_iff hso).1 hr
  obtain ⟨ha, hb⟩ := hR.reaches a b hab.reaches
  exact List.mem_flatMap.2 ⟨a, mem_nodesOf.2 ha, List.mem_map_of_mem (mem_nodesOf.2 hb)⟩

end Settling

end LoopIn

end QuadAlgebra
