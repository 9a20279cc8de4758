import QuadAlgebra.Proofs.Typing.Drafts

/-!
# Typed paths

Every operator of a path reads and emits solutions, so the operator that a path ends with emits
solutions (`Path.draw_addsPairs`), and so do those of its loops, whose edges back lead from
solutions to solutions.
-/

namespace QuadAlgebra

/-- Between any two items the drawing ends with an operator that emits solutions. -/
def AddsPairs (path : DrawPath) : Prop := ∀ s o, AddsProducer (path s o)

namespace PathPlanner

variable {pp : PathPlanner} {d : Draft} {op : Operator Plan} {path : DrawPath}

/-! ## Single operators -/

theorem addsProducer_addSource (hon : op.OnSolutions) (hcovered : op.Covered Plan.Typed) :
    AddsProducer (Draw.addSource op) := fun _ htyped =>
  (Draw.ends_addSource htyped hcovered (by rw [hon.1]; rfl)).mono fun _ _ ⟨h, hop⟩ =>
    ⟨h, hop.emits hon.2⟩

theorem addsProducer_scan (p : TriplePattern) : AddsProducer (pp.scan p) :=
  addsProducer_addSource ⟨rfl, rfl⟩ trivial

theorem addsProducer_probe : AddsProducer pp.probe := addsProducer_addSource ⟨rfl, rfl⟩ trivial

theorem ends_above (op : Operator Plan) {input : OperatorId} (hon : op.OnSolutions)
    (hcovered : op.Covered Plan.Typed)
    (hinput : d.graph.Emits input .solution) :
    (above input op).Ends d fun id d' => d.KeepsKinds d' ∧ d'.graph.OfType id op := by
  unfold above
  refine (Draw.ends_add op hcovered).bind fun id d₁ ⟨h₁, hid⟩ => ?_
  refine (Draw.ends_connect (h₁.graph.emits hinput) (hid.takes (by rw [hon.1]; rfl))).bind
    fun _ d₂ h₂ => ?_
  exact Edit.ends_pure.2 ⟨h₁.trans h₂, hid.keeps h₂.graph⟩

theorem ends_combine (op : Operator Plan) {inputs : List OperatorId} (hon : op.OnSolutions)
    (hcovered : op.Covered Plan.Typed) (hinputs : ∀ id ∈ inputs, d.graph.Emits id .solution) :
    (combine op inputs).Ends d fun id d' => d.KeepsKinds d' ∧ d'.graph.OfType id op := by
  unfold combine
  refine (Draw.ends_add op hcovered).bind fun id d₁ ⟨h₁, hid⟩ => ?_
  refine (Edit.ends_forM Draft.KeepsKinds fun e he d₂ h₂ => ?_).bind fun _ d₃ h₃ => ?_
  · exact Draw.ends_connect
      (h₂.graph.emits (h₁.graph.emits (hinputs e.1 (List.fst_mem_of_mem_zipIdx he))))
      ((hid.keeps h₂.graph).takes (by rw [hon.1]; rfl))
  · exact Edit.ends_pure.2 ⟨h₁.trans h₃, hid.keeps h₃.graph⟩

/-! ## Steps in a row -/

/-- An operator over what a drawing ends with. -/
theorem addsProducer_above (op : Operator Plan) {draw : Draw OperatorId} (hdraw : AddsProducer draw)
    (hon : op.OnSolutions) (hcovered : op.Covered Plan.Typed) :
    AddsProducer (do above (← draw) op) := fun d htyped =>
  (hdraw d htyped).bind fun _ _ ⟨h₁, hid⟩ => (ends_above op hon hcovered hid).mono
    fun _ _ ⟨h₂, hnew⟩ => ⟨h₁.trans h₂, hnew.emits hon.2⟩

theorem ends_project {input : OperatorId} (s o : Item) (hinput : d.graph.Emits input .solution) :
    (pp.project input s o).Ends d fun id d' => d.KeepsKinds d' ∧ d'.graph.Emits id .solution :=
  (ends_above (.projection _) ⟨rfl, rfl⟩ trivial hinput).mono fun _ _ ⟨h, hop⟩ =>
    ⟨h, hop.emits rfl⟩

theorem ends_distinct {input : OperatorId} (hinput : d.graph.Emits input .solution) :
    (pp.distinct input).Ends d fun id d' => d.KeepsKinds d' ∧ d'.graph.Emits id .solution := by
  unfold distinct
  split
  · exact (ends_above .distinct ⟨rfl, rfl⟩ trivial hinput).mono fun _ _ ⟨h, hop⟩ =>
      ⟨h, hop.emits rfl⟩
  · exact Edit.ends_pure.2 ⟨.refl, hinput⟩

/-- The union of what several operators emit, perhaps without repetitions. -/
theorem ends_union {inputs : List OperatorId}
    (hinputs : ∀ id ∈ inputs, d.graph.Emits id .solution) :
    (combine .union inputs).Ends d fun id d' => d.KeepsKinds d' ∧ d'.graph.Emits id .solution :=
  (ends_combine .union ⟨rfl, rfl⟩ trivial hinputs).mono fun _ _ ⟨h, hop⟩ =>
    ⟨h, hop.emits rfl⟩

theorem emits_pair {g : Graph Plan} {a b : OperatorId} (ha : g.Emits a .solution)
    (hb : g.Emits b .solution) : ∀ id ∈ [a, b], g.Emits id .solution := by
  intro id hid
  rcases List.mem_pair.1 hid with rfl | rfl
  · exact ha
  · exact hb

/-! ## Paths of length zero -/

theorem addsProducer_nodes (v : Variable) (asSubject : Bool) :
    AddsProducer (pp.nodes v asSubject) := by
  intro d htyped
  unfold nodes
  refine Draw.ends_freshVar.bind fun predicate d₁ h₁ => ?_
  refine Draw.ends_freshVar.bind fun other d₂ h₂ => ?_
  have h₁₂ := h₁.trans h₂
  refine (addsProducer_scan _ d₂ (h₁₂.graph.typed htyped)).bind fun id d₃ ⟨h₃, hid⟩ => ?_
  exact (ends_project _ _ hid).mono fun _ _ ⟨h₄, hnew⟩ => ⟨(h₁₂.trans h₃).trans h₄, hnew⟩

theorem addsPairs_zeroLength : AddsPairs pp.zeroLength := by
  have hbind (v : Variable) (t : Term) :
      AddsProducer (do above (← pp.probe) (.bind v (.constant t))) :=
    addsProducer_above (.bind _ _) addsProducer_probe ⟨rfl, rfl⟩ trivial
  rintro (s | s) (o | o)
  · intro d htyped
    refine (addsProducer_nodes s true d htyped).bind fun subjects d₁ ⟨h₁, hsubjects⟩ => ?_
    refine (addsProducer_nodes s false d₁ (h₁.graph.typed htyped)).bind
      fun objects d₂ ⟨h₂, hobjects⟩ => ?_
    refine (ends_union (emits_pair (h₂.graph.emits hsubjects) hobjects)).bind
      fun union d₃ ⟨h₃, hunion⟩ => ?_
    refine (ends_distinct hunion).bind fun all d₄ ⟨h₄, hall⟩ => ?_
    have h₁₄ := ((h₁.trans h₂).trans h₃).trans h₄
    split
    · exact Edit.ends_pure.2 ⟨h₁₄, hall⟩
    · exact (ends_above (.bind _ _) ⟨rfl, rfl⟩ trivial hall).mono fun _ _ ⟨h₅, hnew⟩ =>
        ⟨h₁₄.trans h₅, hnew.emits rfl⟩
  · exact hbind s o
  · exact hbind o s
  · exact addsProducer_above (.ruleFilter _) addsProducer_probe ⟨rfl, rfl⟩ trivial

/-! ## Negated sets -/

theorem addsPairs_negatedPart (excluded : List Term) : AddsPairs (pp.negatedPart excluded) := by
  intro s o d htyped
  unfold negatedPart
  refine Draw.ends_freshVar.bind fun any d₁ h₁ => ?_
  refine (addsProducer_scan _ d₁ (h₁.graph.typed htyped)).bind fun base d₂ ⟨h₂, hbase⟩ => ?_
  have h₁₂ := h₁.trans h₂
  split
  · exact (ends_project _ _ hbase).mono fun _ _ ⟨h₃, hnew⟩ => ⟨h₁₂.trans h₃, hnew⟩
  · refine (Edit.ends_mapM Draft.KeepsKinds (fun id d => d.graph.Emits id .solution)
      (fun _ _ _ h he => h.graph.emits he) fun iri _ d' h' => ?_).bind
        fun removed d₃ ⟨h₃, hremoved, _⟩ => ?_
    · exact addsProducer_above (.bind _ _) (addsProducer_scan _) ⟨rfl, rfl⟩ trivial d'
        ((h₁₂.trans h').graph.typed htyped)
    · have h₁₃ := h₁₂.trans h₃
      have hrest (merged : OperatorId) (d₄ : Draft) (h₄ : d₃.KeepsKinds d₄)
          (hmerged : d₄.graph.Emits merged .solution) :
          (do
            let minus ← combine .minus [base, merged]
            pp.project minus s o : Draw OperatorId).Ends d₄ fun id d' =>
              d.KeepsKinds d' ∧ d'.graph.Emits id .solution := by
        refine (ends_combine .minus ⟨rfl, rfl⟩ trivial
          (emits_pair ((h₃.trans h₄).graph.emits hbase) hmerged)).bind
            fun minus d₅ ⟨h₅, hminus⟩ => ?_
        exact (ends_project _ _ (hminus.emits rfl)).mono fun _ _ ⟨h₆, hnew⟩ =>
          ⟨((h₁₃.trans h₄).trans h₅).trans h₆, hnew⟩
      split
      · exact Edit.ends_bind.2 (Edit.ends_pure.2
          (hrest _ d₃ .refl (hremoved _ List.mem_cons_self)))
      · exact (ends_union hremoved).bind fun union d₄ ⟨h₄, hunion⟩ => hrest union d₄ h₄ hunion

theorem addsPairs_negatedSet (members : List Excluded) : AddsPairs (pp.negatedSet members) := by
  intro s o d htyped
  unfold negatedSet
  dsimp only
  have hdistinct {draw : Draw OperatorId} (hdraw : AddsProducer draw) :
      (do pp.distinct (← draw)).Ends d fun id d' => d.KeepsKinds d' ∧ d'.graph.Emits id .solution :=
    (hdraw d htyped).bind fun _ _ ⟨h₁, hid⟩ => (ends_distinct hid).mono fun _ _ ⟨h₂, hnew⟩ =>
      ⟨h₁.trans h₂, hnew⟩
  split
  · exact hdistinct (addsPairs_negatedPart _ s o)
  · split
    · exact hdistinct (addsPairs_negatedPart _ o s)
    · refine (addsPairs_negatedPart _ s o d htyped).bind fun first d₁ ⟨h₁, hfirst⟩ => ?_
      refine (addsPairs_negatedPart _ o s d₁ (h₁.graph.typed htyped)).bind
        fun second d₂ ⟨h₂, hsecond⟩ => ?_
      refine (ends_union (emits_pair (h₂.graph.emits hfirst) hsecond)).bind
        fun union d₃ ⟨h₃, hunion⟩ => ?_
      exact (ends_distinct hunion).mono fun _ _ ⟨h₄, hnew⟩ =>
        ⟨((h₁.trans h₂).trans h₃).trans h₄, hnew⟩

/-! ## Repetition -/

/-- Copies of a path feed the operands of a join. -/
theorem ends_copies (hpath : AddsPairs path) {join : OperatorId} (first n : Nat) (start : Item)
    (htyped : d.graph.Typed Plan.Typed) (hjoin : d.graph.Takes join .solution) :
    (copies path join first n start).Ends d fun _ d' => d.KeepsKinds d' := by
  induction n generalizing first start d with
  | zero => exact Edit.ends_pure.2 .refl
  | succ n ih =>
      unfold copies
      refine Draw.ends_freshVar.bind fun next d₁ h₁ => ?_
      refine (hpath start (.var next) d₁ (h₁.graph.typed htyped)).bind fun copy d₂ ⟨h₂, hcopy⟩ => ?_
      have h₁₂ := h₁.trans h₂
      refine (Draw.ends_connect hcopy (h₁₂.graph.takes hjoin)).bind fun _ d₃ h₃ => ?_
      have h₁₃ := h₁₂.trans h₃
      exact (ih (first + 1) (.var next) (h₁₃.graph.typed htyped) (h₁₃.graph.takes hjoin)).mono
        fun _ _ h₄ => h₁₃.trans h₄

/-- Copies of a path in a row, the last of which is drawn by another path. -/
theorem addsProducer_row {last : DrawPath} {finish : OperatorId → Draw OperatorId}
    (hpath : AddsPairs path) (hlast : AddsPairs last)
    (hfinish : ∀ id d, d.graph.Emits id .solution →
      (finish id).Ends d fun id d' => d.KeepsKinds d' ∧ d'.graph.Emits id .solution)
    (n : Nat) (s o : Item) :
    AddsProducer (do
      let join ← Draw.add .join
      let item ← copies path join 0 n s
      Draw.connect (← last item o) join n
      finish join) := by
  intro d htyped
  refine (Draw.ends_add .join trivial).bind fun join d₁ ⟨h₁, hjoin⟩ => ?_
  refine (ends_copies hpath 0 n s (h₁.graph.typed htyped) (hjoin.takes rfl)).bind
    fun item d₂ h₂ => ?_
  have h₁₂ := h₁.trans h₂
  refine (hlast item o d₂ (h₁₂.graph.typed htyped)).bind fun copy d₃ ⟨h₃, hcopy⟩ => ?_
  have hjoin₃ := hjoin.keeps (h₂.trans h₃).graph
  refine (Draw.ends_connect hcopy (hjoin₃.takes rfl)).bind fun _ d₄ h₄ => ?_
  exact (hfinish join d₄ ((hjoin₃.keeps h₄.graph).emits rfl)).mono fun _ _ ⟨h₅, hnew⟩ =>
    ⟨((h₁₂.trans h₃).trans h₄).trans h₅, hnew⟩

theorem addsPairs_chain (hpath : AddsPairs path) (count : Nat) :
    AddsPairs (pp.chain path count) := by
  intro s o d htyped
  unfold chain
  split
  · exact hpath s o d htyped
  · exact addsProducer_row hpath hpath (fun _ _ hid => ends_project s o hid) _ s o d htyped

theorem addsProducer_loop (hpath : AddsPairs path) (s o : Variable) :
    AddsProducer (pp.loop path s o) := by
  intro d htyped
  unfold loop
  refine (hpath _ _ d htyped).bind fun base d₁ ⟨h₁, hbase⟩ => ?_
  refine (ends_combine .union ⟨rfl, rfl⟩ trivial fun id hid => by
    rwa [List.mem_singleton.1 hid]).bind fun union d₂ ⟨h₂, hunion⟩ => ?_
  refine (ends_above .distinct ⟨rfl, rfl⟩ trivial (hunion.emits rfl)).bind
    fun known d₃ ⟨h₃, hknown⟩ => ?_
  refine Draw.ends_freshVar.bind fun step d₄ h₄ => ?_
  refine (ends_above (.replaceVar _) ⟨rfl, rfl⟩ trivial
    (h₄.graph.emits (hknown.emits rfl))).bind
    fun renamed d₅ ⟨h₅, hrenamed⟩ => ?_
  have hunequal : (Operator.ofCondition (.notEqual (.variable s) (.variable step)) :
      Operator Plan).Covered Plan.Typed :=
    ⟨fun k hk => absurd hk (Nat.not_lt_zero k), fun e he => absurd he List.not_mem_nil⟩
  refine (ends_above (.ofCondition _) ⟨rfl, rfl⟩ hunequal (hrenamed.emits rfl)).bind
    fun unequal d₆ ⟨h₆, hkept⟩ => ?_
  refine (ends_above .join ⟨rfl, rfl⟩ trivial (hkept.emits rfl)).bind fun join d₇ ⟨h₇, hjoin⟩ => ?_
  have h₁₇ := h₁.trans (h₂.trans (h₃.trans (h₄.trans (h₅.trans (h₆.trans h₇)))))
  refine (hpath _ _ d₇ (h₁₇.graph.typed htyped)).bind fun copy d₈ ⟨h₈, hcopy⟩ => ?_
  refine (Draw.ends_connect hcopy ((hjoin.keeps h₈.graph).takes rfl)).bind
    fun _ d₉ h₉ => ?_
  refine (ends_project _ _ ((hjoin.keeps (h₈.trans h₉).graph).emits rfl)).bind
    fun back d₁₀ ⟨h₁₀, hback⟩ => ?_
  have h₃₁₀ := h₃.trans (h₄.trans (h₅.trans (h₆.trans (h₇.trans (h₈.trans (h₉.trans h₁₀))))))
  refine (Draw.ends_onGraph (Graph.ends_connect hback
    ((hunion.keeps h₃₁₀.graph).takes rfl))).bind fun _ d₁₁ h₁₁ => ?_
  have h₄₁₁ := h₄.trans (h₅.trans (h₆.trans (h₇.trans (h₈.trans (h₉.trans (h₁₀.trans h₁₁))))))
  refine Edit.ends_pure.2 ⟨(h₁.trans (h₂.trans h₃₁₀)).trans h₁₁, ?_⟩
  exact h₄₁₁.graph.emits (hknown.emits rfl)

/-- A closure that is restricted afterwards. -/
theorem addsPairs_closure (hpath : AddsPairs path) (rounds : Nat) :
    AddsPairs (pp.closure path rounds) := by
  induction rounds with
  | zero =>
      intro s o d htyped
      unfold closure
      have hitem (i : Item) (d : Draft) :
          ((i.var?.map pure).getD Draw.freshVar).Ends d fun _ d' => d.KeepsKinds d' := by
        cases i with
        | var v => exact Edit.ends_pure.2 .refl
        | term t => exact Draw.ends_freshVar
      refine (hitem s d).bind fun s' d₁ h₁ => (hitem o d₁).bind fun o' d₂ h₂ => ?_
      have h₁₂ := h₁.trans h₂
      exact (addsProducer_loop hpath s' o' d₂ (h₁₂.graph.typed htyped)).mono fun _ _ ⟨h₃, hid⟩ =>
        ⟨h₁₂.trans h₃, hid⟩
  | succ rounds ih =>
      intro s o
      have hcore (s' o' : Variable) (equalities : List (Item × Item)) : AddsProducer (do
          let core ← pp.closure path rounds (.var s') (.var o')
          pp.project (← above core (.ruleFilter equalities)) s o) := by
        intro d htyped
        refine (ih _ _ d htyped).bind fun core d₁ ⟨h₁, hcore⟩ => ?_
        refine (ends_above (.ruleFilter _) ⟨rfl, rfl⟩ trivial hcore).bind
          fun kept d₂ ⟨h₂, hkept⟩ => ?_
        exact (ends_project s o (hkept.emits rfl)).mono fun _ _ ⟨h₃, hnew⟩ =>
          ⟨(h₁.trans h₂).trans h₃, hnew⟩
      have hfresh {f : Variable → Draw OperatorId} (hf : ∀ v, AddsProducer (f v)) :
          AddsProducer (do f (← Draw.freshVar)) := fun d htyped =>
        Draw.ends_freshVar.bind fun v d₁ h₁ => (hf v d₁ (h₁.graph.typed htyped)).mono
          fun _ _ ⟨h₂, hid⟩ => ⟨h₁.trans h₂, hid⟩
      unfold closure
      cases s with
      | var v =>
          cases o with
          | var w =>
              dsimp only
              simp only [pure_bind]
              split
              · split
                · exact hfresh fun o' => hcore v o' _
                · exact hcore v w _
              · exact addsProducer_loop hpath v w
          | term t =>
              dsimp only
              simp only [pure_bind]
              exact hfresh fun o' => hcore v o' _
      | term t =>
          cases o with
          | var w =>
              dsimp only
              simp only [pure_bind]
              refine hfresh fun s' => ?_
              split
              · exact hfresh fun o' => hcore s' o' _
              · exact hcore s' w _
          | term u => exact hfresh fun s' => hfresh fun o' => hcore s' o' _

theorem addsPairs_oneOrMore (hpath : AddsPairs path) : AddsPairs (pp.oneOrMore path) :=
  addsPairs_closure hpath 3

theorem addsPairs_withZero (hpath : AddsPairs path) : AddsPairs (pp.withZero path) := by
  intro s o d htyped
  unfold withZero
  refine (addsPairs_zeroLength s o d htyped).bind fun none d₁ ⟨h₁, hnone⟩ => ?_
  refine (hpath s o d₁ (h₁.graph.typed htyped)).bind fun more d₂ ⟨h₂, hmore⟩ => ?_
  refine (ends_union (emits_pair (h₂.graph.emits hnone) hmore)).bind fun union d₃ ⟨h₃, hunion⟩ => ?_
  exact (ends_distinct hunion).mono fun _ _ ⟨h₄, hnew⟩ =>
    ⟨((h₁.trans h₂).trans h₃).trans h₄, hnew⟩

theorem addsPairs_positiveRange (hpath : AddsPairs path) (min max : Nat) :
    AddsPairs (pp.positiveRange path min max) := by
  intro s o d htyped
  unfold positiveRange
  refine (Edit.ends_mapM Draft.KeepsKinds (fun id d => d.graph.Emits id .solution)
    (fun _ _ _ h he => h.graph.emits he) fun n _ d' h' =>
      addsPairs_chain hpath n s o d' (h'.graph.typed htyped)).bind
        fun outputs d₁ ⟨h₁, houtputs, _⟩ => ?_
  split
  · exact Edit.ends_pure.2 ⟨h₁, houtputs _ List.mem_cons_self⟩
  · refine (ends_union houtputs).bind fun union d₂ ⟨h₂, hunion⟩ => ?_
    exact (ends_distinct hunion).mono fun _ _ ⟨h₃, hnew⟩ => ⟨(h₁.trans h₂).trans h₃, hnew⟩

theorem addsPairs_bounded (hpath : AddsPairs path) (min max : Nat) :
    AddsPairs (pp.bounded path min max) := by
  intro s o
  unfold bounded
  split
  · exact fun d _ => Draw.ends_malformed
  · split
    · exact addsPairs_zeroLength s o
    · split
      · exact addsPairs_withZero (addsPairs_positiveRange hpath 1 max) s o
      · exact addsPairs_positiveRange hpath min max s o

theorem addsPairs_unbounded (hpath : AddsPairs path) (min : Nat) :
    AddsPairs (pp.unbounded path min) := by
  intro s o
  unfold unbounded
  split
  · exact addsPairs_withZero (addsPairs_oneOrMore hpath) s o
  · exact addsPairs_oneOrMore hpath s o
  · refine addsProducer_row hpath (addsPairs_oneOrMore hpath) (fun join d hjoin => ?_) _ s o
    refine (ends_project s o hjoin).bind fun id d₁ ⟨h₁, hid⟩ => ?_
    exact (ends_distinct hid).mono fun _ _ ⟨h₂, hnew⟩ => ⟨h₁.trans h₂, hnew⟩

end PathPlanner

/-- A path ends with an operator that emits solutions. -/
theorem Path.draw_addsPairs (pp : PathPlanner) : (path : Path) → AddsPairs (path.draw pp)
  | .predicate iri => fun s o => PathPlanner.addsProducer_scan _
  | .inverse p => fun s o => p.draw_addsPairs pp o s
  | .sequence p q => fun s o d htyped => by
      refine Draw.ends_freshVar.bind fun middle d₁ h₁ => ?_
      refine (p.draw_addsPairs pp _ _ d₁ (h₁.graph.typed htyped)).bind
        fun left d₂ ⟨h₂, hleft⟩ => ?_
      have h₁₂ := h₁.trans h₂
      refine (q.draw_addsPairs pp _ _ d₂ (h₁₂.graph.typed htyped)).bind
        fun right d₃ ⟨h₃, hright⟩ => ?_
      refine (PathPlanner.ends_combine .join ⟨rfl, rfl⟩ trivial
        (PathPlanner.emits_pair (h₃.graph.emits hleft) hright)).bind fun join d₄ ⟨h₄, hjoin⟩ => ?_
      exact (PathPlanner.ends_project s o (hjoin.emits rfl)).mono fun _ _ ⟨h₅, hnew⟩ =>
        ⟨((h₁₂.trans h₃).trans h₄).trans h₅, hnew⟩
  | .alternative p q => fun s o d htyped => by
      refine (p.draw_addsPairs pp s o d htyped).bind fun left d₁ ⟨h₁, hleft⟩ => ?_
      refine (q.draw_addsPairs pp s o d₁ (h₁.graph.typed htyped)).bind
        fun right d₂ ⟨h₂, hright⟩ => ?_
      refine (PathPlanner.ends_union
        (PathPlanner.emits_pair (h₂.graph.emits hleft) hright)).bind fun union d₃ ⟨h₃, hunion⟩ => ?_
      refine (PathPlanner.ends_project s o hunion).bind fun shown d₄ ⟨h₄, hshown⟩ => ?_
      exact (PathPlanner.ends_distinct hshown).mono fun _ _ ⟨h₅, hnew⟩ =>
        ⟨(((h₁.trans h₂).trans h₃).trans h₄).trans h₅, hnew⟩
  | .negatedSet members => PathPlanner.addsPairs_negatedSet members
  | .repetition p min (some max) => PathPlanner.addsPairs_bounded (p.draw_addsPairs pp) min max
  | .repetition p min none => PathPlanner.addsPairs_unbounded (p.draw_addsPairs pp) min
  | .oneOrMore p => PathPlanner.addsPairs_oneOrMore (p.draw_addsPairs pp)
  | .zeroOrMore p =>
      PathPlanner.addsPairs_withZero (PathPlanner.addsPairs_oneOrMore (p.draw_addsPairs pp))
  | .zeroOrOne p => PathPlanner.addsPairs_withZero (p.draw_addsPairs pp)

end QuadAlgebra
