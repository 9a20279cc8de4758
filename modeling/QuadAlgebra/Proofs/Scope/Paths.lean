import QuadAlgebra.Proofs.Scope.Labels

/-!
# Labels of paths

The last operator of a path between two items binds nothing but the variables among the items and
the variable of the graph (`Path.within`), for every form of path and every pair of items. Interim
variables end at the latest where a path projects: parts of a path that meet in interim variables
are joined without any claim about what they bind.
-/

namespace QuadAlgebra

/-- The planner reads the triples of a store. -/
def Planner.ReadsStore (p : Planner) : Prop := ∃ dataset known, p.scans = .ofStore dataset known

theorem Planner.ReadsStore.scan_eq {p : Planner} (h : p.ReadsStore) (patterns : List TriplePattern)
    (graph : Option Item) : ∃ source, p.scan patterns graph = .scan ⟨patterns, graph, source⟩ := by
  obtain ⟨dataset, known, hscans⟩ := h
  exact ⟨⟨dataset, true⟩, by rw [Planner.scan, hscans]; rfl⟩

/-- A scan binds the variables of its patterns and of its graph. -/
theorem Planner.ReadsStore.fits_scan {p : Planner} {V : Set Variable} (h : p.ReadsStore)
    {patterns : List TriplePattern} {graph : Option Item}
    (hpatterns : ∀ q ∈ patterns, ∀ v ∈ q.vars, v ∈ V)
    (hgraph : ∀ v ∈ Item.vars graph.toList, v ∈ V) :
    (p.scan patterns graph).Fits (.within V) := by
  obtain ⟨source, hscan⟩ := h.scan_eq patterns graph
  rw [hscan]
  refine Operator.fits_scan fun v hv => ?_
  rw [IndexScan.vars, OrdSet.mem_union, OrdSet.mem_unionOf] at hv
  rcases hv with ⟨q, hq, hv⟩ | hv
  · exact hpatterns q hq v hv
  · exact hgraph v hv

namespace PathPlanner

/-- What a path between two items may bind. -/
def ends (pp : PathPlanner) (s o : Item) : Set Variable := {v | v ∈ pp.endpoints s o}

variable {pp : PathPlanner} {path : DrawPath} {s o : Item} {old : Graph Plan}
  {L : Labels}

theorem mem_ends {v : Variable} :
    v ∈ pp.ends s o ↔ .var v = s ∨ .var v = o ∨ .var v ∈ pp.graph.toList := by
  simp [ends, endpoints, Item.mem_vars]

theorem ends_comm (pp : PathPlanner) : pp.ends s o = pp.ends o s := by
  ext v
  simp only [mem_ends]
  tauto

theorem mem_ends_of_graph : ∀ v ∈ Item.vars pp.graph.toList, v ∈ pp.ends s o :=
  fun _ hv => mem_ends.2 (.inr (.inr (Item.mem_vars.1 hv)))

end PathPlanner

/-- Between any two items the path binds nothing but the variables among them and that of the
graph. -/
def PathWithin (pp : PathPlanner) (path : DrawPath) : Prop :=
  ∀ (old : Graph Plan) (L : Labels) (s o : Item),
    KeepsLabels old L (path s o) fun L' id => L'.Emits id (pp.ends s o)

namespace PathPlanner

variable {pp : PathPlanner} {path : DrawPath} {s o : Item} {old : Graph Plan}
  {L : Labels} {V : Set Variable} {input : OperatorId}

/-! ## Operators over others -/

theorem keepsLabels_above {op : Operator Plan} {l : Label} (hop : op.Fits l)
    (hin : L.Emits input (l.reads 0)) :
    KeepsLabels old L (above input op) fun L' id => L'.Has id l :=
  (KeepsLabels.add op l hop).bind fun _ _ hle hid =>
    (KeepsLabels.connect (hin.mono hle) (hid.takes 0)).bind fun _ _ hle' _ => .pure (hid.mono hle')

/-- An operator that may do what it likes. -/
theorem keepsLabels_anyAbove (op : Operator Plan) (hop : op.kind ≠ .result)
    (hin : L.Emits input V) :
    KeepsLabels old L (above input op) fun L' id => L'.Has id (.within Set.univ) :=
  keepsLabels_above (Operator.fits_univ hop) hin.any

theorem keepsLabels_combine {op : Operator Plan} {l : Label} {inputs : List OperatorId}
    (hop : op.Fits l) (hin : ∀ e ∈ inputs.zipIdx, L.Emits e.1 (l.reads e.2)) :
    KeepsLabels old L (combine op inputs) fun L' id => L'.Has id l :=
  (KeepsLabels.add op l hop).bind fun _ _ hle hid =>
    (KeepsLabels.forM fun e he _ hle' =>
      .connect ((hin e he).mono (hle.trans hle')) ((hid.mono hle').takes e.2)).bind
        fun _ _ hle' _ => .pure (hid.mono hle')

theorem keepsLabels_union {inputs : List OperatorId} (hin : ∀ id ∈ inputs, L.Emits id V) :
    KeepsLabels old L (combine .union inputs) fun L' id => L'.Emits id V :=
  (keepsLabels_combine (l := .within V) Operator.fits_union fun e he =>
    hin e.1 (List.fst_mem_of_mem_zipIdx he)).mono fun _ _ _ hid => hid.emits

theorem keepsLabels_distinct (hin : L.Emits input V) :
    KeepsLabels old L (pp.distinct input) fun L' id => L'.Emits id V := by
  unfold distinct
  exact .ite (fun _ => (keepsLabels_above (l := .within V) Operator.fits_distinct hin).mono
    fun _ _ _ hid => hid.emits) fun _ => .pure hin

/-- Whatever is projected binds nothing else afterwards. -/
theorem keepsLabels_project (hin : L.Emits input V) (s o : Item) :
    KeepsLabels old L (pp.project input s o) fun L' id => L'.Emits id (pp.ends s o) :=
  (keepsLabels_above (Operator.fits_projection _) hin.any).mono fun _ _ _ hid => hid.emits

theorem keepsLabels_scan (hp : pp.planner.ReadsStore) {p : TriplePattern}
    (h : ∀ v ∈ p.vars, v ∈ V) (hgraph : ∀ v ∈ Item.vars pp.graph.toList, v ∈ V) :
    KeepsLabels old L (pp.scan p) fun L' id => L'.Emits id V :=
  .addSource _ (hp.fits_scan (List.forall_mem_singleton.2 h) hgraph)

/-- A scan whose rows are projected later on. -/
theorem keepsLabels_anyScan (p : TriplePattern) :
    KeepsLabels old L (pp.scan p) fun L' id => L'.Emits id Set.univ :=
  .addSource _ (Operator.fits_univ nofun)

theorem keepsLabels_probe :
    KeepsLabels old L pp.probe fun L' id => L'.Emits id (pp.ends s o) :=
  .addSource _ (Operator.fits_probe mem_ends_of_graph)

/-! ## Paths of length zero -/

theorem keepsLabels_nodes (v : Variable) (asSubject : Bool) :
    KeepsLabels old L (pp.nodes v asSubject) fun L' id => L'.Emits id (pp.ends (.var v) (.var v)) :=
  KeepsLabels.freshVar.bind fun _ _ _ _ => KeepsLabels.freshVar.bind fun _ _ _ _ =>
    (keepsLabels_anyScan _).bind fun _ _ _ hscan => keepsLabels_project hscan _ _

theorem zeroLength_within : PathWithin pp pp.zeroLength := by
  intro old L s o
  -- a probe with one of the items bound to the other one
  have hprobe (op : Operator Plan) (hop : op.Fits (.within (pp.ends s o))) :
      KeepsLabels old L (do above (← pp.probe) op) fun L' id => L'.Emits id (pp.ends s o) :=
    keepsLabels_probe.bind fun _ _ _ hprobe =>
      (keepsLabels_above hop hprobe).mono fun _ _ _ hid => hid.emits
  rcases s with s | s <;> rcases o with o | o
  · have hsub : pp.ends (.var s) (.var s) ⊆ pp.ends (.var s) (.var o) := fun v hv => by
      simp only [mem_ends] at hv ⊢
      tauto
    refine (keepsLabels_nodes s true).bind fun subjects _ _ hsubjects => ?_
    refine (keepsLabels_nodes s false).bind fun objects _ hle hobjects => ?_
    refine (keepsLabels_union (V := pp.ends (.var s) (.var o)) fun id hid => ?_).bind
      fun union _ _ hunion => (keepsLabels_distinct hunion).bind fun all _ _ hall => ?_
    · rcases List.mem_pair.1 hid with rfl | rfl
      · exact (hsubjects.mono hle).weaken hsub
      · exact hobjects.weaken hsub
    · refine .ite (fun _ => .pure hall) fun _ => (keepsLabels_above (Operator.fits_bind _ ?_)
        hall).mono fun _ _ _ hid => hid.emits
      exact mem_ends.2 (.inr (.inl rfl))
  · exact hprobe _ (Operator.fits_bind _ (mem_ends.2 (.inl rfl)))
  · exact hprobe _ (Operator.fits_bind _ (mem_ends.2 (.inr (.inl rfl))))
  · exact hprobe _ (Operator.fits_ruleFilter _)

/-! ## Negated sets -/

theorem negatedPart_within (excluded : List Term) : PathWithin pp (pp.negatedPart excluded) := by
  intro old L s o
  unfold negatedPart
  refine KeepsLabels.freshVar.bind fun any _ _ _ => (keepsLabels_anyScan _).bind
    fun base L₁ _ hbase => .ite (fun _ => keepsLabels_project hbase s o) fun _ => ?_
  have hrest {L₂ : Labels} (hle : L₁ ≤ L₂) {removed : OperatorId}
      (hremoved : L₂.Emits removed Set.univ) : KeepsLabels old L₂ (do
        let minus ← combine .minus [base, removed]
        pp.project minus s o) fun L' id => L'.Emits id (pp.ends s o) := by
    refine (keepsLabels_combine (l := .within Set.univ) (Operator.fits_univ (by nofun))
      fun e he => ?_).bind
      fun _ _ _ hminus => keepsLabels_project hminus.emits s o
    rcases List.mem_pair.1 (List.fst_mem_of_mem_zipIdx he) with he | he
    · exact he ▸ hbase.mono hle
    · exact he ▸ hremoved
  refine (KeepsLabels.mapM_emits fun iri _ _ _ => (keepsLabels_anyScan _).bind
      fun _ _ _ hscan =>
        (keepsLabels_anyAbove _ (by nofun) hscan).mono fun _ _ _ hid => hid.emits).bind
        fun removed L₂ hle hremoved => ?_
  dsimp only
  split
  · next single =>
    exact (KeepsLabels.pure (hremoved single List.mem_cons_self)).bind fun _ _ hle' hsingle =>
      hrest (hle.trans hle') hsingle
  · exact (keepsLabels_union hremoved).bind fun _ _ hle' hunion => hrest (hle.trans hle') hunion

theorem negatedSet_within (members : List Excluded) : PathWithin pp (pp.negatedSet members) := by
  intro old L s o
  have hback (excluded : List Term) {L' : Labels} :
      KeepsLabels old L' (pp.negatedPart excluded o s) fun L' id => L'.Emits id (pp.ends s o) :=
    pp.ends_comm ▸ negatedPart_within excluded old L' o s
  unfold negatedSet
  dsimp only
  split
  · exact (negatedPart_within _ old L s o).bind fun _ _ _ h => keepsLabels_distinct h
  · split
    · exact (hback _).bind fun _ _ _ h => keepsLabels_distinct h
    · refine (negatedPart_within _ old L s o).bind fun _ _ _ hfirst => ?_
      refine (hback _).bind fun _ _ hle hsecond => ?_
      refine (keepsLabels_union fun id hid => ?_).bind fun _ _ _ h => keepsLabels_distinct h
      rcases List.mem_pair.1 hid with rfl | rfl
      · exact hfirst.mono hle
      · exact hsecond

/-! ## Repetition -/

/-- Copies of a path in a row, which may bind what they like. -/
theorem keepsLabels_copies (hpath : PathWithin pp path) {join : OperatorId}
    (hjoin : L.Has join (.within Set.univ)) (first n : Nat) (start : Item) :
    KeepsLabels old L (copies path join first n start) noClaim := by
  induction n generalizing L first start with
  | zero => exact .pure trivial
  | succ n ih =>
      unfold copies
      refine KeepsLabels.freshVar.bind fun next _ hle _ => (hpath _ _ _ _).bind
        fun _ _ hle' hcopy => ?_
      have hjoin := (hjoin.mono hle).mono hle'
      exact (KeepsLabels.connect hcopy.any (hjoin.takes first)).bind fun _ _ hle'' _ =>
        ih (hjoin.mono hle'') _ _

/-- Copies of a path in a row, the last of which is drawn by another path. -/
theorem keepsLabels_row {last : DrawPath} {finish : OperatorId → Draw OperatorId}
    {post : Labels → OperatorId → Prop} (hpath : PathWithin pp path) (hlast : PathWithin pp last)
    (hfinish : ∀ (L : Labels) (id : OperatorId), L.Emits id Set.univ →
      KeepsLabels old L (finish id) post) (n : Nat) (s o : Item) :
    KeepsLabels old L (do
      let join ← Draw.add .join
      let item ← copies path join 0 n s
      Draw.connect (← last item o) join n
      finish join) post := by
  refine (KeepsLabels.add .join _ (Operator.fits_univ nofun)).bind fun join _ _ hjoin => ?_
  refine (keepsLabels_copies hpath hjoin 0 n s).bind fun item _ hle _ => ?_
  refine (hlast _ _ item o).bind fun id _ hle' hid => ?_
  have hjoin := (hjoin.mono hle).mono hle'
  exact (KeepsLabels.connect hid.any (hjoin.takes n)).bind fun _ _ hle'' _ =>
    hfinish _ join (hjoin.mono hle'').emits

theorem chain_within (hpath : PathWithin pp path) (count : Nat) :
    PathWithin pp (pp.chain path count) := by
  intro old L s o
  unfold chain
  exact .ite (fun _ => hpath _ _ s o) fun _ => keepsLabels_row hpath hpath
    (fun _ _ hjoin => keepsLabels_project hjoin s o) _ s o

/-- A loop keeps what its path binds between its ends; what it joins is projected. -/
theorem keepsLabels_loop (hpath : PathWithin pp path) (s o : Variable) :
    KeepsLabels old L (pp.loop path s o) fun L' id => L'.Emits id (pp.ends (.var s) (.var o)) := by
  unfold loop
  refine (hpath _ _ _ _).bind fun base _ _ hbase => ?_
  refine (keepsLabels_combine (l := .within (pp.ends (.var s) (.var o))) Operator.fits_union
    fun e he => ?_).bind fun union _ _ hunion => ?_
  · exact List.mem_singleton.1 (List.fst_mem_of_mem_zipIdx he) ▸ hbase
  refine (keepsLabels_above (l := .within (pp.ends (.var s) (.var o))) Operator.fits_distinct
    hunion.emits).bind fun known _ hle hknown => ?_
  refine KeepsLabels.freshVar.bind fun step _ hle₁ _ => ?_
  refine (keepsLabels_anyAbove _ (by nofun) (hknown.mono hle₁).emits).bind
    fun renamed _ hle₂ hrenamed => ?_
  refine (keepsLabels_anyAbove _ (by nofun) hrenamed.emits).bind fun unequal _ hle₃ hunequal => ?_
  refine (keepsLabels_anyAbove .join nofun hunequal.emits).bind fun join _ hle₄ hjoin => ?_
  refine (hpath _ _ _ _).bind fun copy _ hle₅ hcopy => ?_
  refine (KeepsLabels.connect hcopy.any ((hjoin.mono hle₅).takes 1)).bind fun _ _ hle₆ _ => ?_
  refine (keepsLabels_project ((hjoin.mono hle₅).mono hle₆).emits _ _).bind
    fun back _ hle₇ hback => ?_
  have hlater := hle₁.trans (hle₂.trans (hle₃.trans (hle₄.trans (hle₅.trans (hle₆.trans hle₇)))))
  refine (KeepsLabels.link hback ((hunion.mono (hle.trans hlater)).takes 1) true).bind
    fun _ _ hle₈ _ => ?_
  exact .pure (hknown.mono (hlater.trans hle₈)).emits

/-- A restricted closure is projected, and an unrestricted one is a loop. No claim is made about the
closure that is drawn last, which may run between interim variables. -/
theorem keepsLabels_closure (hpath : PathWithin pp path) (rounds : Nat) (s o : Item) :
    KeepsLabels old L (pp.closure path rounds s o) fun L' id =>
      L'.Emits id (if rounds = 0 then Set.univ else pp.ends s o) := by
  induction rounds generalizing L s o with
  | zero =>
      unfold closure
      have hitem (i : Item) {L : Labels} :
          KeepsLabels old L ((i.var?.map Pure.pure).getD Draw.freshVar) noClaim := by
        cases i with
        | var v => exact .pure trivial
        | term t => exact .freshVar
      exact (hitem s).bind fun _ _ _ _ => (hitem o).bind fun _ _ _ _ =>
        (keepsLabels_loop hpath _ _).mono fun _ _ _ hid => hid.any
  | succ rounds ih =>
      rw [if_neg (Nat.succ_ne_zero rounds)]
      have hcore (s' o' : Variable) (equalities : List (Item × Item)) {L : Labels} :
          KeepsLabels old L (do
            let core ← pp.closure path rounds (.var s') (.var o')
            pp.project (← above core (.ruleFilter equalities)) s o) fun L' id =>
              L'.Emits id (pp.ends s o) :=
        (ih _ _).bind fun _ _ _ hcore =>
        (keepsLabels_anyAbove _ (by nofun) hcore).bind fun _ _ _ hid =>
          keepsLabels_project hid.emits s o
      have hfresh {f : Variable → Draw OperatorId} {post : Labels → OperatorId → Prop}
          {L : Labels} (hf : ∀ v, ∀ {L' : Labels}, KeepsLabels old L' (f v) post) :
          KeepsLabels old L (do f (← Draw.freshVar)) post :=
        KeepsLabels.freshVar.bind fun v _ _ _ => hf v
      unfold closure
      cases s with
      | var v =>
          cases o with
          | var w =>
              dsimp only
              simp only [pure_bind]
              split
              · split
                · exact hfresh fun o' _ => hcore v o' _
                · exact hcore v w _
              · exact keepsLabels_loop hpath v w
          | term t =>
              dsimp only
              simp only [pure_bind]
              exact hfresh fun o' _ => hcore v o' _
      | term t =>
          cases o with
          | var w =>
              dsimp only
              simp only [pure_bind]
              refine hfresh fun s' _ => ?_
              split
              · exact hfresh fun o' _ => hcore s' o' _
              · exact hcore s' w _
          | term u => exact hfresh fun s' _ => hfresh fun o' _ => hcore s' o' _

theorem oneOrMore_within (hpath : PathWithin pp path) : PathWithin pp (pp.oneOrMore path) :=
  fun _ _ s o => keepsLabels_closure hpath 3 s o

theorem withZero_within (hpath : PathWithin pp path) : PathWithin pp (pp.withZero path) := by
  intro old L s o
  refine (zeroLength_within _ _ s o).bind fun none _ _ hnone => ?_
  refine (hpath _ _ s o).bind fun more _ hle hmore => ?_
  refine (keepsLabels_union fun id hid => ?_).bind fun _ _ _ h => keepsLabels_distinct h
  rcases List.mem_pair.1 hid with rfl | rfl
  · exact hnone.mono hle
  · exact hmore

theorem positiveRange_within (hpath : PathWithin pp path) (min max : Nat) :
    PathWithin pp (pp.positiveRange path min max) := by
  intro old L s o
  unfold positiveRange
  refine (KeepsLabels.mapM_emits fun n _ _ _ => chain_within hpath n _ _ s o).bind
      fun outputs _ _ houtputs => ?_
  split
  · next single => exact .pure (houtputs single List.mem_cons_self)
  · exact (keepsLabels_union houtputs).bind fun _ _ _ h => keepsLabels_distinct h

theorem bounded_within (hpath : PathWithin pp path) (min max : Nat) :
    PathWithin pp (pp.bounded path min max) := by
  intro old L s o
  unfold bounded
  exact .ite (fun _ => .malformed) fun _ => .ite (fun _ => zeroLength_within _ _ s o) fun _ =>
    .ite (fun _ => withZero_within (positiveRange_within hpath 1 max) _ _ s o) fun _ =>
      positiveRange_within hpath min max _ _ s o

theorem unbounded_within (hpath : PathWithin pp path) (min : Nat) :
    PathWithin pp (pp.unbounded path min) := by
  intro old L s o
  have hmore := oneOrMore_within hpath
  unfold unbounded
  split
  · exact withZero_within hmore _ _ s o
  · exact hmore _ _ s o
  · exact keepsLabels_row hpath hmore (fun _ _ hjoin => (keepsLabels_project hjoin s o).bind
      fun _ _ _ h => keepsLabels_distinct h) _ s o

end PathPlanner

/-! ## All paths -/

/-- The plan of a path binds nothing but the variables at its ends and that of the graph. -/
theorem Path.within {pp : PathPlanner} (hp : pp.planner.ReadsStore) (p : Path) :
    PathWithin pp (p.draw pp) := by
  induction p with
  | predicate iri =>
      refine fun old L s o => PathPlanner.keepsLabels_scan hp (fun v hv => ?_)
        PathPlanner.mem_ends_of_graph
      rw [TriplePattern.vars, Item.mem_vars] at hv
      simp only [TriplePattern.items, List.mem_cons, List.not_mem_nil, reduceCtorEq, false_or,
        or_false] at hv
      exact PathPlanner.mem_ends.2 (hv.imp_right .inl)
  | inverse p ih => exact fun old L s o => pp.ends_comm ▸ ih old L o s
  | sequence p q ihp ihq =>
      refine fun old L s o => KeepsLabels.freshVar.bind fun _ _ _ _ => (ihp _ _ _ _).bind
        fun left _ _ hleft => (ihq _ _ _ _).bind fun right _ hle hright => ?_
      refine (PathPlanner.keepsLabels_combine (l := .within Set.univ)
        (Operator.fits_univ (by nofun))
        fun e he => ?_).bind fun _ _ _ hjoin =>
          PathPlanner.keepsLabels_project hjoin.emits s o
      rcases List.mem_pair.1 (List.fst_mem_of_mem_zipIdx he) with he | he
      · exact he ▸ (hleft.mono hle).any
      · exact he ▸ hright.any
  | alternative p q ihp ihq =>
      refine fun old L s o => (ihp _ _ s o).bind fun left _ _ hleft =>
        (ihq _ _ s o).bind fun right _ hle hright => ?_
      refine (PathPlanner.keepsLabels_union (V := pp.ends s o) fun id hid => ?_).bind
        fun _ _ _ hunion => (PathPlanner.keepsLabels_project hunion s o).bind fun _ _ _ h =>
          PathPlanner.keepsLabels_distinct h
      rcases List.mem_pair.1 hid with rfl | rfl
      · exact hleft.mono hle
      · exact hright
  | negatedSet members => exact PathPlanner.negatedSet_within members
  | repetition p min max ih =>
      cases max with
      | some max => exact PathPlanner.bounded_within ih min max
      | none => exact PathPlanner.unbounded_within ih min
  | oneOrMore p ih => exact PathPlanner.oneOrMore_within ih
  | zeroOrMore p ih => exact PathPlanner.withZero_within (PathPlanner.oneOrMore_within ih)
  | zeroOrOne p ih => exact PathPlanner.withZero_within ih

end QuadAlgebra
