import QuadAlgebra.Proofs.Variables.Sketches

/-!
# Sketches of paths

A path between two items ends in an operator whose only domain is made of the variables among the
items and that of the graph (`PathPlanner.DrawsEnds`). What a path draws stands beside the rest
of the sketch (`Sketch.Places`). The paths of this module draw no loop: the path of length zero and
the negated sets.
-/

namespace QuadAlgebra

/-- Scans are made of the patterns and for the graph that are asked for. -/
def Planner.ScansPatterns (p : Planner) : Prop :=
  ∀ patterns graph, ∃ source, p.scan patterns graph = .scan ⟨patterns, graph, source⟩

/-- A planner that scans a store makes one scan for each pattern. -/
theorem Planner.scansPatterns_ofStore {p : Planner} {dataset : String} {store : Store}
    (hp : p.scans = .ofStore dataset store) : p.ScansPatterns := fun patterns graph => by
  unfold Planner.scan
  exact hp ▸ ⟨⟨dataset, true⟩, rfl⟩

namespace Sketch

variable {rules : Bool} {k₀ k k' : Sketch rules} {outs : List (OperatorId × VarSet)}
  {id s : OperatorId} {op : Operator Plan} {D E : VarSet} {draw : Draw OperatorId}

/-- Operators with known domains stand beside a sketch. -/
structure Places (k₀ k : Sketch rules) (outs : List (OperatorId × VarSet)) : Prop where
  beside : k₀.Beside k
  offers : ∀ out ∈ outs, k.Offers out.1 out.2
  fresh : ∀ out ∈ outs, k₀.graph.operator? out.1 = none

/-- An identifier that is free beside a sketch was free in it. -/
theorem Beside.fresh (h : k₀.Beside k) (hid : k.graph.operator? id = none) :
    k₀.graph.operator? id = none := by
  by_contra hlive
  exact h.toExtends.live hlive hid

/-- Every sketch places nothing. -/
theorem Places.nil (k : Sketch rules) : k.Places k [] :=
  ⟨.refl, fun _ h => absurd h List.not_mem_nil, fun _ h => absurd h List.not_mem_nil⟩

/-- What is placed may be forgotten. -/
theorem Places.sub {outs' : List (OperatorId × VarSet)} (h : k₀.Places k outs)
    (hsub : ∀ out ∈ outs', out ∈ outs) : k₀.Places k outs' :=
  ⟨h.beside, fun out hout => h.offers out (hsub out hout),
    fun out hout => h.fresh out (hsub out hout)⟩

/-- Placing first some operators and then others places them all. -/
theorem Places.trans {outs' : List (OperatorId × VarSet)} (h : k₀.Places k outs)
    (h' : k.Places k' outs') : k₀.Places k' (outs' ++ outs) where
  beside := h.beside.trans h'.beside
  offers out hout := (List.mem_append.1 hout).elim (h'.offers out) fun hout =>
    (h.offers out hout).mono h'.beside.toExtends
  fresh out hout := (List.mem_append.1 hout).elim (fun hout => h.beside.fresh (h'.fresh out hout))
    (h.fresh out)

/-- The drawing puts an operator with the domain beside every sketch. -/
def DrawsDomain (rules : Bool) (draw : Draw OperatorId) (D : VarSet) : Prop :=
  ∀ k : Sketch rules, Sketches k draw fun k' id => k.Places k' [(id, D)]

/-- A drawing after others. -/
theorem Places.next (h : k₀.Places k outs) (hdraw : DrawsDomain rules draw D) :
    Sketches k draw fun k' id => k₀.Places k' ((id, D) :: outs) :=
  (hdraw k).mono fun _ _ h' => h.trans h'

/-- Drawings of one kind, one after the other. -/
theorem Places.mapM {α : Type} {l : List α} {f : α → Draw OperatorId} (h : k₀.Places k outs)
    (hf : ∀ a ∈ l, DrawsDomain rules (f a) D) : Sketches k (l.mapM f) fun k' ids =>
      ids.length = l.length ∧ k₀.Places k' (ids.map (·, D) ++ outs) := by
  induction l generalizing k outs with
  | nil => exact .pure ⟨rfl, h⟩
  | cons a rest ih =>
      rw [List.mapM_cons]
      refine (h.next (hf a List.mem_cons_self)).bind fun k₁ id h₁ => ?_
      refine (ih h₁ fun b hb => hf b (List.mem_cons_of_mem _ hb)).bind
        fun k₂ ids ⟨hlength, h₂⟩ => ?_
      refine .pure ⟨by simp [hlength], h₂.sub fun out hout => ?_⟩
      simp only [List.map_cons, List.cons_append, List.mem_cons, List.mem_append] at hout ⊢
      tauto

/-- A new operator over operators that have been placed. -/
theorem Places.adds {inputs : List OperatorId} (h : k₀.Places k outs)
    (hinputs : ∀ s ∈ inputs, ∃ E, (s, E) ∈ outs)
    (hadds : k.Adds k' id op (· ∈ PathPlanner.inputsFrom inputs) (some D)) :
    k₀.Places k' ((id, D) :: outs) := by
  refine ⟨?_, fun out hout => ?_, fun out hout => ?_⟩
  · refine h.beside.change hadds.toChanges (h.beside.fresh hadds.fresh) fun i hi => .inr (.inr ?_)
    obtain ⟨E, hE⟩ := hinputs _ (PathPlanner.mem_inputsFrom ((hadds.inputs i).1 hi)).2
    exact h.fresh _ hE
  · rcases List.mem_cons.1 hout with rfl | hout
    · refine ⟨hadds.shape, fun i hop' hi => ?_⟩
      exact (PathPlanner.mem_inputsFrom ((hadds.inputs i).1 hi)).1
    · exact (h.offers out hout).mono hadds.toExtends
  · rcases List.mem_cons.1 hout with rfl | hout
    · exact h.beside.fresh hadds.fresh
    · exact h.fresh out hout

/-- Operators that have been placed stand in the graph, on no loop. -/
theorem Places.live {inputs : List OperatorId} (h : k₀.Places k outs)
    (hinputs : ∀ s ∈ inputs, ∃ E, (s, E) ∈ outs) :
    ∀ s ∈ inputs, k.graph.operator? s ≠ none ∧ k.graph.Unlooped s := fun s hs => by
  obtain ⟨E, hE⟩ := hinputs s hs
  exact ⟨(h.offers _ hE).live, (h.offers _ hE).unlooped⟩

/-- An operator over placed ones is placed with the domain it settles on. -/
theorem Places.combine {inputs : List OperatorId} (h : k₀.Places k outs) (hop : op.Drawable rules)
    (hkind : op.kind ∉ [.optional, .scan, .probe, .replaceVar])
    (hinputs : ∀ s ∈ inputs, ∃ E, (s, E) ∈ outs)
    (hsettled : ∀ (g : Graph Plan) (id : OperatorId),
      (∀ i, g.Reads id i ↔ i ∈ PathPlanner.inputsFrom inputs) → g.Settled k.shapes id op D) :
    Sketches k (PathPlanner.combine op inputs) fun k' id => k₀.Places k' ((id, D) :: outs) ∧
      k.Adds k' id op (· ∈ PathPlanner.inputsFrom inputs) (some D) := by
  simp only [List.mem_cons, List.not_mem_nil, or_false, not_or] at hkind
  refine (PathPlanner.sketches_combine (some D) hop (fun he => absurd he hkind.1)
    (fun hs => ?_) (fun hr => absurd hr hkind.2.2.2) (h.live hinputs)
    fun D' hD g id hreads => ?_).mono
      fun k' id hadds => ⟨h.adds hinputs hadds, hadds⟩
  · simp only [List.mem_cons, List.not_mem_nil, or_false] at hs
    exact hs.elim (fun h => absurd h hkind.2.1) fun h => absurd h hkind.2.2.1
  · exact Option.some.inj hD ▸ hsettled g id hreads

/-- A new operator that turns the rows of one operator into rows of one domain. -/
theorem Places.above {input : OperatorId} (h : k₀.Places k outs) (op : Operator Plan)
    (hop : op.isOrdinary = true)
    (hkind : op.kind ∈ [.projection, .bind, .filter, .ruleFilter, .distinct])
    (hinput : (input, E) ∈ outs) (hfixes : op.Fixes 0 E D) :
    Sketches k (PathPlanner.above input op) fun k' id => k₀.Places k' ((id, D) :: outs) ∧
      k.Adds k' id op (· ∈ PathPlanner.inputsFrom [input]) (some D) := by
  have hkinds : ∀ kind ∈ [Kind.projection, .bind, .filter, .ruleFilter, .distinct],
      kind ∈ Operator.steady ∧ kind ∉ [.optional, .scan, .probe, .replaceVar] ∧
        kind ≠ .root ∧ kind ≠ .join := by decide
  obtain ⟨hsteady, hnot, hroot, hjoin⟩ := hkinds _ hkind
  rw [PathPlanner.above_eq_combine]
  refine h.combine (Operator.drawable_of_isOrdinary hop) hnot
    (fun s hs => ⟨E, List.mem_singleton.1 hs ▸ hinput⟩) fun g id hreads => ?_
  refine (Graph.settled_of_ne hroot hjoin).2 ⟨hsteady, fun i hi => ?_⟩
  obtain rfl : i = ⟨input, 0, false⟩ := by
    simpa [PathPlanner.inputsFrom] using (hreads i).1 hi
  exact ⟨E, (h.offers _ hinput).shape, hfixes⟩

/-- An ordinary operator over one placed operator has the domain that it fixes. -/
theorem Places.over {input : OperatorId} (h : k₀.Places k outs) (op : Operator Plan)
    (hop : op.isOrdinary = true)
    (hkind : op.kind ∈ [.projection, .bind, .filter, .ruleFilter, .distinct])
    (hinput : (input, E) ∈ outs) (hfixes : op.Fixes 0 E D) :
    Sketches k (PathPlanner.above input op) fun k' id => k₀.Places k' ((id, D) :: outs) :=
  (h.above op hop hkind hinput hfixes).mono fun _ _ h' => h'.1

/-- A union over operators of one domain has that domain. -/
theorem Places.union {inputs : List OperatorId} (h : k₀.Places k outs)
    (hinputs : ∀ s ∈ inputs, (s, D) ∈ outs) :
    Sketches k (PathPlanner.combine .union inputs) fun k' id => k₀.Places k' ((id, D) :: outs) ∧
      k.Adds k' id .union (· ∈ PathPlanner.inputsFrom inputs) (some D) := by
  refine h.combine (Operator.drawable_of_isOrdinary rfl) (by simp [Operator.kind])
    (fun s hs => ⟨D, hinputs s hs⟩) fun g id hreads => ?_
  refine (Graph.settled_of_ne Kind.noConfusion Kind.noConfusion).2
    ⟨by simp [Operator.kind, Operator.steady], fun i hi => ?_⟩
  exact ⟨D, (h.offers _ (hinputs _ (PathPlanner.mem_inputsFrom ((hreads i).1 hi)).2)).shape, rfl⟩

/-- A union of two operators of one domain, which take their turn in the order of drawing. -/
theorem Places.pair {a b : OperatorId} (h : k₀.Places k ((b, D) :: (a, D) :: outs)) :
    Sketches k (PathPlanner.combine .union [a, b]) fun k' id => k₀.Places k' [(id, D)] := by
  refine (h.union (D := D) fun s hs => ?_).mono fun _ _ h' => h'.1.sub fun out hout => ?_
  · rcases List.mem_pair.1 hs with rfl | rfl <;> simp
  · rw [List.mem_singleton.1 hout]
    exact List.mem_cons_self

/-- A scan or a probe. -/
theorem drawsDomain_addSource (hop : op.Drawable rules) (hkind : op.kind ∈ [.scan, .probe])
    (hfixes : op.Fixes 0 ∅ D) : DrawsDomain rules (Draw.addSource op) D := by
  intro k
  rw [PathPlanner.addSource_eq_above, PathPlanner.above_eq_combine]
  have hsteady : op.kind ∈ Operator.steady := by
    simp only [List.mem_cons, List.not_mem_nil, or_false] at hkind
    rcases hkind with he | he <;> simp [he, Operator.steady]
  have hne (kind : Kind) (hkind' : kind ∉ [Kind.scan, .probe]) : op.kind ≠ kind := by
    rintro rfl
    exact hkind' hkind
  refine (PathPlanner.sketches_combine (some D) hop (fun he => absurd he (hne _ (by simp)))
    (fun _ => rfl) (fun hr => absurd hr (hne _ (by simp))) (fun s hs => ?_)
    fun D' hD g id hreads => ?_).mono
      fun k' id hadds => ⟨?_, fun out hout => ?_, fun out hout => ?_⟩
  · obtain rfl := List.mem_singleton.1 hs
    exact ⟨live_root, unlooped_root⟩
  · obtain rfl := Option.some.inj hD
    refine (Graph.settled_of_ne (hne _ (by simp)) (hne _ (by simp))).2 ⟨hsteady, fun i hi => ?_⟩
    obtain rfl : i = ⟨Graph.root, 0, false⟩ := by
      simpa [PathPlanner.inputsFrom] using (hreads i).1 hi
    exact ⟨∅, k.regular.root_shape, hfixes⟩
  · refine Beside.refl.change hadds.toChanges hadds.fresh fun i hi => .inr (.inl ?_)
    exact List.mem_singleton.1 (PathPlanner.mem_inputsFrom ((hadds.inputs i).1 hi)).2
  · obtain rfl := List.mem_singleton.1 hout
    exact ⟨hadds.shape, fun i _ hi => (PathPlanner.mem_inputsFrom ((hadds.inputs i).1 hi)).1⟩
  · obtain rfl := List.mem_singleton.1 hout
    exact hadds.fresh

end Sketch

/-! ## Single operators of paths -/

/-- Between any two items the path ends with the variables among them and that of the graph. -/
def DrawsEnds (rules : Bool) (pp : PathPlanner) (path : DrawPath) : Prop :=
  ∀ s o, Sketch.DrawsDomain rules (path s o) (pp.endpoints s o)

namespace PathPlanner

open Sketch

variable {rules : Bool} {pp : PathPlanner} {path : DrawPath} {s o : Item} {v : Variable}
  {k₀ k : Sketch rules} {outs : List (OperatorId × VarSet)} {input : OperatorId} {D : VarSet}

/-- The endpoints of a path are the variables among its ends and its graph. -/
theorem mem_endpoints :
    v ∈ pp.endpoints s o ↔ .var v = s ∨ .var v = o ∨ .var v ∈ pp.graph.toList := by
  simp [endpoints, Item.mem_vars]

/-- The endpoints do not depend on the direction. -/
theorem endpoints_comm (pp : PathPlanner) (s o : Item) : pp.endpoints s o = pp.endpoints o s := by
  refine OrdSet.eq_of_mem_iff fun v => ?_
  simp only [mem_endpoints]
  tauto

/-- Where all endpoints are bound, projection onto them leaves these alone. -/
theorem inter_endpoints (h : ∀ v ∈ pp.endpoints s o, v ∈ D) :
    pp.endpoints s o = D ∩ pp.endpoints s o := by
  refine OrdSet.eq_of_mem_iff fun v => ?_
  rw [OrdSet.mem_inter]
  exact (and_iff_right_of_imp (h v)).symm

/-- A scan of a path binds the variables of its pattern and its graph. -/
theorem drawsDomain_scan (hpp : pp.planner.ScansPatterns) (p : TriplePattern) :
    DrawsDomain rules (pp.scan p) (p.vars ∪ Item.vars pp.graph.toList) := by
  obtain ⟨source, hscan⟩ := hpp [p] pp.graph
  unfold scan
  rw [hscan]
  refine drawsDomain_addSource (Operator.drawable_of_isOrdinary rfl) (by simp [Operator.kind]) ?_
  show _ = ∅ ∪ IndexScan.vars _
  refine OrdSet.eq_of_mem_iff fun v => ?_
  simp [IndexScan.vars, OrdSet.mem_unionOf]

/-- A probe of a path binds the variable of its graph. -/
theorem drawsDomain_probe : DrawsDomain rules pp.probe (Item.vars pp.graph.toList) := by
  refine drawsDomain_addSource (Operator.drawable_of_isOrdinary rfl) (by simp [Operator.kind]) ?_
  show _ = ∅ ∪ Item.vars _
  refine OrdSet.eq_of_mem_iff fun v => ?_
  simp

/-- A binding that cannot fail adds its variable. -/
theorem places_bind {e : Expression} {E : VarSet} (h : k₀.Places k outs)
    (hinput : (input, E) ∈ outs) (htotal : e.isTotal E = true) :
    Sketches k (above input (.bind v e)) fun k' id => k₀.Places k' ((id, E.insert v) :: outs) :=
  h.over _ rfl (by simp [Operator.kind]) hinput ⟨htotal, rfl⟩

/-- A projection onto the endpoints binds these, if its input does. -/
theorem places_project {E : VarSet} (h : k₀.Places k outs) (hinput : (input, E) ∈ outs)
    (hE : ∀ v ∈ pp.endpoints s o, v ∈ E) : Sketches k (pp.project input s o) fun k' id =>
      k₀.Places k' ((id, pp.endpoints s o) :: outs) :=
  h.over _ rfl (by simp [Operator.kind]) hinput (inter_endpoints hE)

/-- A filter on equal items leaves the bound variables. -/
theorem places_ruleFilter (equalities : List (Item × Item)) (h : k₀.Places k outs)
    (hinput : (input, D) ∈ outs) : Sketches k (above input (.ruleFilter equalities)) fun k' id =>
      k₀.Places k' ((id, D) :: outs) :=
  h.over _ rfl (by simp [Operator.kind]) hinput rfl

/-- Deduplication leaves the bound variables. -/
theorem places_distinct (h : k₀.Places k outs) (hinput : (input, D) ∈ outs) :
    Sketches k (pp.distinct input) fun k' id => k₀.Places k' ((id, D) :: outs) := by
  unfold distinct
  refine .ite (fun _ => ?_) fun _ => .pure (h.sub fun out hout => ?_)
  · exact h.over _ rfl (by simp [Operator.kind]) hinput rfl
  · exact (List.mem_cons.1 hout).elim (fun he => he ▸ hinput) id

/-- What is subtracted does not matter. -/
theorem places_minus {removed : OperatorId} {E : VarSet} (h : k₀.Places k outs)
    (hinput : (input, D) ∈ outs)
    (hremoved : (removed, E) ∈ outs) : Sketches k (combine .minus [input, removed])
      fun k' id => k₀.Places k' ((id, D) :: outs) := by
  refine (h.combine (Operator.drawable_of_isOrdinary rfl) (by simp [Operator.kind])
    (fun s hs => ?_) fun g id hreads => ?_).mono fun _ _ h' => h'.1
  · rcases List.mem_pair.1 hs with rfl | rfl
    · exact ⟨D, hinput⟩
    · exact ⟨E, hremoved⟩
  · refine (Graph.settled_of_ne Kind.noConfusion Kind.noConfusion).2
      ⟨by simp [Operator.kind, Operator.steady], fun i hi => ?_⟩
    have hi : i = ⟨input, 0, false⟩ ∨ i = ⟨removed, 1, false⟩ := by
      simpa [inputsFrom] using (hreads i).1 hi
    rcases hi with rfl | rfl
    · exact ⟨D, (h.offers _ hinput).shape, fun _ => rfl⟩
    · exact ⟨E, (h.offers _ hremoved).shape, fun hzero => absurd hzero Nat.one_ne_zero⟩

/-- What has been placed may be projected in the end. -/
theorem places_last {E : VarSet} {rest : List (OperatorId × VarSet)} {id : OperatorId}
    (h : k₀.Places k ((id, E) :: rest)) (hE : E = D) : k₀.Places k [(id, D)] :=
  h.sub fun out hout => by
    rw [List.mem_singleton.1 hout, ← hE]
    exact List.mem_cons_self

/-! ## Paths of length zero -/

/-- The nodes of the graph bind the variable asked for. -/
theorem drawsDomain_nodes (hpp : pp.planner.ScansPatterns) (v : Variable) (asSubject : Bool) :
    DrawsDomain rules (pp.nodes v asSubject) (pp.endpoints (.var v) (.var v)) := by
  intro k
  unfold nodes
  refine Sketches.freshVar.bind fun k₁ predicate h₁ => ?_
  subst h₁
  refine Sketches.freshVar.bind fun k₂ other h₂ => ?_
  subst h₂
  refine ((Places.nil _).next (drawsDomain_scan hpp _)).bind fun k₃ id h₃ => ?_
  refine (places_project h₃ List.mem_cons_self fun w hw => ?_).mono fun _ _ h₄ => places_last h₄ rfl
  rw [OrdSet.mem_union]
  rcases mem_endpoints.1 hw with hw | hw | hw
  · left
    cases asSubject <;> simp [TriplePattern.vars, TriplePattern.items, Item.mem_vars, hw]
  · left
    cases asSubject <;> simp [TriplePattern.vars, TriplePattern.items, Item.mem_vars, hw]
  · exact .inr (Item.mem_vars.2 hw)

/-- A path of length zero binds its endpoints. -/
theorem drawsEnds_zeroLength (hpp : pp.planner.ScansPatterns) :
    DrawsEnds rules pp pp.zeroLength := by
  have hbind (v : Variable) (t : Term) (s o : Item) (hends : ∀ w, .var w = s ∨ .var w = o ↔ w = v) :
      DrawsDomain rules (do above (← pp.probe) (.bind v (.constant t))) (pp.endpoints s o) := by
    intro k
    refine ((Places.nil k).next drawsDomain_probe).bind fun k₁ id h₁ => ?_
    refine (places_bind h₁ List.mem_cons_self rfl).mono fun _ _ h₂ => places_last h₂ ?_
    refine OrdSet.eq_of_mem_iff fun w => ?_
    rw [OrdSet.mem_insert, mem_endpoints, ← or_assoc, hends, Item.mem_vars]
  rintro (s | s) (o | o)
  · intro k
    refine ((Places.nil k).next (drawsDomain_nodes hpp s true)).bind fun k₁ subjects h₁ => ?_
    refine (h₁.next (drawsDomain_nodes hpp s false)).bind fun k₂ objects h₂ => ?_
    refine h₂.pair.bind fun k₃ union h₃ => ?_
    refine (places_distinct h₃ List.mem_cons_self).bind fun k₄ all h₄ => .ite (fun he => ?_)
      fun hne => ?_
    · exact .pure (places_last h₄ (by rw [he]))
    · refine (places_bind h₄ List.mem_cons_self ?_).mono fun _ _ h₅ => places_last h₅ ?_
      · exact OrdSet.contains_iff.2 (mem_endpoints.2 (.inl rfl))
      · refine OrdSet.eq_of_mem_iff fun w => ?_
        rw [OrdSet.mem_insert, mem_endpoints, mem_endpoints, Item.var.injEq, Item.var.injEq]
        tauto
  · exact hbind s o _ _ fun w => by simp
  · exact hbind o s _ _ fun w => by simp
  · intro k
    refine ((Places.nil k).next drawsDomain_probe).bind fun k₁ id h₁ => ?_
    refine (places_ruleFilter _ h₁ List.mem_cons_self).mono fun _ _ h₂ => places_last h₂ ?_
    refine OrdSet.eq_of_mem_iff fun w => ?_
    rw [mem_endpoints, Item.mem_vars]
    simp

/-! ## Negated sets -/

/-- One direction of a negated set binds its endpoints. -/
theorem drawsEnds_negatedPart (hpp : pp.planner.ScansPatterns) (excluded : List Term) :
    DrawsEnds rules pp (pp.negatedPart excluded) := by
  intro s o k
  unfold negatedPart
  refine Sketches.freshVar.bind fun k₁ any h₁ => ?_
  subst h₁
  obtain ⟨D, hD⟩ : ∃ D : VarSet,
    D = (⟨s, .var any, o⟩ : TriplePattern).vars ∪ Item.vars pp.graph.toList := ⟨_, rfl⟩
  have hends : ∀ v ∈ pp.endpoints s o, v ∈ D := fun v hv => by
    rw [hD, OrdSet.mem_union]
    rcases mem_endpoints.1 hv with rfl | rfl | hv
    · simp [TriplePattern.vars, TriplePattern.items, Item.mem_vars]
    · simp [TriplePattern.vars, TriplePattern.items, Item.mem_vars]
    · exact .inr (Item.mem_vars.2 hv)
  refine ((Places.nil k₁).next (hD ▸ drawsDomain_scan hpp _)).bind fun k₂ base h₂ => ?_
  refine .ite (fun _ => ?_) fun _ => ?_
  · exact (places_project h₂ List.mem_cons_self hends).mono fun _ _ h₃ => places_last h₃ rfl
  -- what is subtracted has the domain of what it is subtracted from
  have hremoved (iri : Term) : DrawsDomain rules
      (do above (← pp.scan ⟨s, .term iri, o⟩) (.bind any (.constant iri))) D := by
    intro k
    refine ((Places.nil k).next (drawsDomain_scan hpp _)).bind fun k₁ id h₁ => ?_
    refine (places_bind h₁ List.mem_cons_self rfl).mono fun _ _ h₂ => places_last h₂ ?_
    refine OrdSet.eq_of_mem_iff fun w => ?_
    rw [OrdSet.mem_insert, hD]
    simp only [OrdSet.mem_union, TriplePattern.vars, TriplePattern.items, Item.mem_vars,
      List.mem_cons, List.not_mem_nil, or_false, Item.var.injEq, reduceCtorEq, false_or]
    tauto
  have hrest {k' : Sketch rules} {outs : List (OperatorId × VarSet)} {removed : OperatorId}
      (h : k₁.Places k' outs) (hbase : (base, D) ∈ outs) (hremoved : (removed, D) ∈ outs) :
      Sketches k' (do
        let minus ← combine .minus [base, removed]
        pp.project minus s o) fun k'' id => k₁.Places k'' [(id, pp.endpoints s o)] := by
    refine (places_minus h hbase hremoved).bind fun k₃ minus h₃ => ?_
    exact (places_project h₃ List.mem_cons_self hends).mono fun _ _ h₄ => places_last h₄ rfl
  refine (h₂.mapM fun iri _ => hremoved iri).bind fun k₃ removed hmany => ?_
  obtain ⟨-, h₃⟩ := hmany
  have hmember {x : OperatorId} (hx : x ∈ removed) : (x, D) ∈ removed.map (·, D) ++ [(base, D)] :=
    List.mem_append_left _ (List.mem_map_of_mem hx)
  have hbase : (base, D) ∈ removed.map (·, D) ++ [(base, D)] :=
    List.mem_append_right _ (List.mem_singleton_self _)
  dsimp only
  split
  · next single =>
    have hsingle : Sketches k₃ (pure single : Draw OperatorId) fun k' id => k' = k₃ ∧ id = single :=
      .pure ⟨rfl, rfl⟩
    refine hsingle.bind fun k' id hstep => ?_
    obtain ⟨hk, hid⟩ := hstep
    subst hk hid
    exact hrest h₃ hbase (hmember List.mem_cons_self)
  · refine (h₃.union fun x hx => hmember hx).bind fun k₄ union hstep => ?_
    obtain ⟨h₄, _⟩ := hstep
    exact hrest h₄ (List.mem_cons_of_mem _ hbase) List.mem_cons_self

/-- A negated set binds its endpoints. -/
theorem drawsEnds_negatedSet (hpp : pp.planner.ScansPatterns) (members : List Excluded) :
    DrawsEnds rules pp (pp.negatedSet members) := by
  intro s o k
  have hback (excluded : List Term) : DrawsDomain rules (pp.negatedPart excluded o s)
      (pp.endpoints s o) := pp.endpoints_comm s o ▸ drawsEnds_negatedPart hpp excluded o s
  have hdistinct {k' : Sketch rules} {outs : List (OperatorId × VarSet)} {id : OperatorId}
      (h : k.Places k' ((id, pp.endpoints s o) :: outs)) :
      Sketches k' (pp.distinct id) fun k'' id' =>
        k.Places k'' [(id', pp.endpoints s o)] :=
    (places_distinct h List.mem_cons_self).mono fun _ _ h' => places_last h' rfl
  unfold negatedSet
  dsimp only
  split
  · exact ((Places.nil k).next (drawsEnds_negatedPart hpp _ s o)).bind fun _ _ h => hdistinct h
  · split
    · exact ((Places.nil k).next (hback _)).bind fun _ _ h => hdistinct h
    · refine ((Places.nil k).next (drawsEnds_negatedPart hpp _ s o)).bind fun _ _ h₁ => ?_
      refine (h₁.next (hback _)).bind fun _ _ h₂ => ?_
      exact h₂.pair.bind fun _ _ h₃ => hdistinct h₃

end PathPlanner

end QuadAlgebra
