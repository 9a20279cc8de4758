import QuadAlgebra.Proofs.Rules.Bodies

/-!
# Drawings of rule programs

The heads of a rule read the one producer of its body, and the result reads all heads
(`Draft.Programmed`). In the end heads are fed back to matchers, so that what is prepared is the
graph of the rules with these edges (`RuleProgram.ends_prepare_recursive`).
-/

namespace QuadAlgebra

variable {src : Source} {p : Planner} {d d₁ d' : Draft} {x y : OperatorId}
  {heads : List RuleHead} {ids : List OperatorId} {rule : Rule} {output : RuleOutput}

/-! ## New edges -/

/-- A tracked draft with some more forward edges, which do not lead to matchers. -/
theorem Draft.Tracked.of_wired (new : OperatorId → Input → Prop) (hd : d.Tracked)
    (hwiring : d'.wiring = d.wiring)
    (hwired : d'.graph.Wired d.size d.graph.operator? fun x i => d.graph.Reads x i ∨ new x i)
    (hnew : ∀ x i, new x i → x ∉ d.wiring.tripleMatchers ∧ i.feedback = false) : d'.Tracked where
  linked := hwired.linked
  root := (hwired.operator? _).trans hd.root
  result := hd.result.imp fun _ hform => (hwired.operator? _).trans hform
  forward x i hi := ((hwired.reads x i).1 hi).elim (hd.forward x i) fun hi => (hnew x i hi).2
  quiet x op hop := hd.quiet x op ((hwired.operator? x).symm.trans hop)
  matchers x := by rw [hwiring, hd.matchers, hwired.operator?]
  unfed x hx i hi := by
    rw [hwiring] at hx
    exact ((hwired.reads x i).1 hi).elim (hd.unfed x hx i) fun hi => (hnew x i hi).1 hx
  atomHeads := hwiring ▸ hd.atomHeads

theorem Graph.mem_operand {γ : Type} {g : Graph γ} (h : g.Linked) {z : OperatorId} {k : Nat} :
    z ∈ g.operand x k ↔ ∃ i, g.Reads x i ∧ i.operand = k ∧ i.source = z := by
  simp only [operand, List.mem_map, List.mem_filter, h.mem_inputs, beq_iff_eq, and_assoc, Reads]

/-- Other operands come to read all that the first one reads. -/
theorem ends_shareInputs_wired (hd : d.Tracked) (first : Cursor) (others : List Cursor) :
    (Draw.shareInputs first others).Ends d fun _ d' => d'.wiring = d.wiring ∧
      d'.graph.Wired d.size d.graph.operator? fun x i => d.graph.Reads x i ∨ ∃ c ∈ others,
        x = c.target ∧ i.source ∈ d.graph.operand first.target first.operand ∧
          i = ⟨i.source, c.operand, false⟩ := by
  unfold Draw.shareInputs
  refine Edit.ends_bind.2 (Edit.ends_get.2 ?_)
  generalize d.graph.operand first.target first.operand = producers
  refine Edit.ends_forM_of_step (fun (done : List Cursor) (d' : Draft) => d'.wiring = d.wiring ∧
    d'.graph.Wired d.size d.graph.operator? fun x i => d.graph.Reads x i ∨ ∃ c ∈ done,
      x = c.target ∧ i.source ∈ producers ∧ i = ⟨i.source, c.operand, false⟩)
    ⟨rfl, hd.wired.congr (fun _ => rfl) fun _ _ => by simp⟩ fun done c rest _ d₁ h₁ => ?_
  refine (Edit.ends_forM_of_step (fun (fed : List OperatorId) (d' : Draft) => d'.wiring = d.wiring ∧
    d'.graph.Wired d.size d.graph.operator? fun x i => (d.graph.Reads x i ∨ ∃ c ∈ done,
      x = c.target ∧ i.source ∈ producers ∧ i = ⟨i.source, c.operand, false⟩) ∨
        x = c.target ∧ i.source ∈ fed ∧ i = ⟨i.source, c.operand, false⟩)
    ⟨h₁.1, h₁.2.congr (fun _ => rfl) fun _ _ => by simp⟩ fun fed z rest _ d₂ h₂ => ?_).mono
      fun _ d₂ h₂ => ⟨h₂.1, h₂.2.congr (fun _ => rfl) fun x i => ?_⟩
  · unfold Cursor.feed Draw.connect Draw.onGraph
    refine Edit.ends_within.2 ((Graph.wired_connect h₂.2 c.operand false).mono fun _ g' hg => ?_)
    refine ⟨h₂.1, hg.2.2.congr (fun _ => rfl) fun x i => ?_⟩
    rw [or_assoc, ← and_or_left, List.mem_append, List.mem_singleton, or_and_right]
    refine or_congr_right (and_congr_right fun _ => or_congr_right ⟨?_, ?_⟩)
    · rintro rfl
      exact ⟨rfl, rfl⟩
    · rintro ⟨hsource, hi⟩
      rw [hi, hsource]
  · rw [or_assoc]
    refine or_congr_right ?_
    simp only [List.mem_append, List.mem_singleton, or_and_right, exists_or, exists_eq_left]

/-! ## Heads -/

/-- Heads have been added to a draft, which the result reads and which read nothing yet. -/
structure HeadsAdded (d d' : Draft) (heads : List RuleHead) (ids : List OperatorId) : Prop where
  tracked : d'.Tracked
  grown : d.Grown d' 1 fun i => i.source ∈ ids ∧ i = ⟨i.source, 0, false⟩
  generators : d'.wiring.generators = d.wiring.generators ++ ids
  heads : List.Forall₂ (fun x head => d.size ≤ x ∧
    (∃ pattern, head = .triple pattern ∧ d'.graph.operator? x = some (.generate pattern)) ∧
      ∀ i, ¬ d'.graph.Reads x i) ids heads

/-- The result may be fed. -/
theorem Draft.Tracked.open_result (hd : d.Tracked) : (Cursor.mk 1 0).Open d := by
  obtain ⟨form, hform⟩ := hd.result
  exact ⟨_, hform, fun _ h => Kind.noConfusion (congrArg Operator.kind h)⟩

theorem Draft.Tracked.result_lt (hd : d.Tracked) : 1 < d.size :=
  hd.open_result.lt_size hd

/-- A head is added. -/
theorem ends_addHead (hd : d.Tracked) (pattern : TriplePattern) :
    (do
      let id ← (RuleHead.triple pattern).draw
      (Cursor.mk 1 0).feed id
      return (⟨id, 0⟩ : Cursor) : Draw Cursor).Ends d fun c d' =>
        c = ⟨d.size, 0⟩ ∧ HeadsAdded d d' [.triple pattern] [d.size] ∧ d'.size = d.size + 1 := by
  unfold RuleHead.draw
  refine Edit.ends_bind.2 ((Draw.ends_add_gains hd (.generate pattern)).bind fun id d₁ hadd => ?_)
  obtain ⟨rfl, hwiring, hgains⟩ := hadd
  refine Edit.ends_bind.2 (Edit.ends_modify.2 (Edit.ends_pure.2 ?_))
  have hgains' : d.Gains { d₁ with wiring := { d₁.wiring with
    generators := d₁.wiring.generators ++ [d.size] } } (.generate pattern) fun _ _ => False :=
      hgains
  refine (Draw.ends_connect_gains hgains' d.size 1 0).bind fun _ d₂ hconnect =>
    Edit.ends_pure.2 ⟨rfl, ?_, hconnect.2.length⟩
  obtain ⟨hwiring', hgains⟩ := hconnect
  have hgains : d.Gains d₂ (.generate pattern) fun x i => x = 1 ∧ i = ⟨d.size, 0, false⟩ :=
    hgains.congr (fun _ => rfl) fun x i => by simp
  have hresult : d.size ≠ 1 := Nat.ne_of_gt hd.result_lt
  have hd₂ : d₂.Tracked := by
    refine hd.gains hgains ⟨rfl, by simp [Operator.kind]⟩ ?_ (fun x => ?_) ?_
    · rintro x i ⟨rfl, rfl⟩
      refine ⟨?_, rfl⟩
      rw [hwiring', hwiring]
      exact hd.open_result.not_mem hd
    · simp [hwiring', hwiring]
    · rw [hwiring', hwiring]
  refine ⟨hd₂, Draft.Tracked.grown_of_gains hgains fun x _ i => and_congr_right fun _ => ?_, ?_,
    .cons ⟨Nat.le_refl _, ⟨pattern, rfl, ?_⟩, fun i hi => ?_⟩ .nil⟩
  · rw [List.mem_singleton]
    constructor
    · rintro rfl
      exact ⟨rfl, rfl⟩
    · rintro ⟨hsource, hi⟩
      rw [hi, hsource]
  · rw [hwiring', hwiring]
  · rw [hgains.operator?, if_pos rfl]
  · exact ((hgains.reads _ i).1 hi).elim hd.unread fun h => hresult h.1

/-- Heads are added one after the other. -/
theorem ends_addHeads (hd : d.Tracked)
    (hheads : ∀ head ∈ heads, ∃ pattern, head = .triple pattern) :
    (heads.mapM fun head => do
      let id ← head.draw
      (Cursor.mk 1 0).feed id
      return (⟨id, 0⟩ : Cursor) : Draw (List Cursor)).Ends d fun cs d' =>
        ∃ ids, cs = ids.map (⟨·, 0⟩) ∧ HeadsAdded d d' heads ids := by
  induction heads generalizing d with
  | nil =>
      rw [List.mapM_nil]
      refine Edit.ends_pure.2 ⟨[], rfl, hd, ?_, by simp, .nil⟩
      exact ⟨Nat.le_refl _, fun _ _ => rfl, fun _ _ _ => by simp⟩
  | cons head rest ih =>
      obtain ⟨pattern, rfl⟩ := hheads head List.mem_cons_self
      rw [List.mapM_cons]
      refine (ends_addHead hd pattern).bind fun c d₁ hfirst => ?_
      obtain ⟨rfl, hfirst, hsize⟩ := hfirst
      refine (ih hfirst.tracked fun h hh => hheads h (List.mem_cons_of_mem _ hh)).bind
        fun cs d₂ hrest => Edit.ends_pure.2 ?_
      obtain ⟨ids, rfl, hrest⟩ := hrest
      have hlt : d.size < d₁.size := hsize ▸ Nat.lt_succ_self _
      have hne : d.size ≠ 1 := Nat.ne_of_gt hd.result_lt
      obtain ⟨⟨-, ⟨q, hq, hop⟩, hunread⟩, -⟩ := List.forall₂_cons.1 hfirst.heads
      refine ⟨d.size :: ids, rfl, hrest.tracked, ⟨?_, fun y hy => ?_, fun y hy i => ?_⟩, ?_,
        .cons ⟨Nat.le_refl _, ⟨q, hq, ?_⟩, fun i hi => ?_⟩ (hrest.heads.imp fun y h hy => ?_)⟩
      · exact Nat.le_trans (Nat.le_of_lt hlt) hrest.grown.size_le
      · rw [hrest.grown.operator? y (Nat.lt_trans hy hlt), hfirst.grown.operator? y hy]
      · rw [hrest.grown.reads y (Nat.lt_trans hy hlt), hfirst.grown.reads y hy, or_assoc,
          ← and_or_left, ← or_and_right, List.mem_singleton, List.mem_cons]
      · rw [hrest.generators, hfirst.generators, List.append_assoc]
        rfl
      · rw [hrest.grown.operator? _ hlt, hop]
      · exact ((hrest.grown.reads _ hlt i).1 hi).elim (hunread i) fun h => hne h.1
      · exact ⟨Nat.le_trans (Nat.le_of_lt hlt) hy.1, hy.2⟩

/-! ## Rules -/

/-- The heads of a rule, each with the body. -/
def Rule.clauses (r : Rule) : List (RuleHead × Group) := r.heads.map (·, r.body)

/-- An operator derives what a head makes of the solutions of a body. -/
structure Draft.Concludes (src : Source) (d : Draft) (x : OperatorId)
    (clause : RuleHead × Group) : Prop where
  operator : ∃ pattern, clause.1 = .triple pattern ∧
    d.graph.operator? x = some (.generate pattern)
  reads : ∃ y, (∀ i, d.graph.Reads x i ↔ i = ⟨y, 0, false⟩) ∧
    d.Finds src 2 y (clause.2.bodyPart src).answers
  reached : clause.2.matchesTriple = true →
    ∃ m ∈ d.wiring.tripleMatchers, Relation.TransGen d.graph.Leads m x

theorem Draft.Concludes.grown {clause : RuleHead × Group} {fed : Input → Prop}
    (h : d.Concludes src x clause) (hd : d.Tracked) (hd' : d'.Tracked)
    (hgrown : d.Grown d' 1 fed) : d'.Concludes src x clause := by
  obtain ⟨pattern, hclause, hop⟩ := h.operator
  obtain ⟨y, hreads, hfinds⟩ := h.reads
  have hx : (x : Nat) < d.size := hd.lt_size hop
  have hne : x ≠ 1 := by
    rintro rfl
    obtain ⟨form, hform⟩ := hd.result
    cases hop.symm.trans hform
  refine ⟨⟨pattern, hclause, (hgrown.operator? x hx).trans hop⟩, ⟨y, fun i => ?_, ?_⟩, fun hm => ?_⟩
  · rw [hgrown.reads x hx, hreads]
    simp [hne]
  · exact hgrown.finds Nat.one_lt_two hfinds
  · obtain ⟨m, hm, hleads⟩ := h.reached hm
    obtain ⟨q, hq⟩ := (hd.matchers m).1 hm
    refine ⟨m, (hd'.matchers m).2 ⟨q, ?_⟩, hgrown.leads hd hd' hleads⟩
    exact (hgrown.operator? m (hd.lt_size hq)).trans hq

/-- The heads of a rule read one producer, which has the solutions of the body. -/
structure BodyShared (src : Source) (d d' : Draft) (body : Group) (ids : List OperatorId)
    (y : OperatorId) : Prop where
  tracked : d'.Tracked
  size_le : d.size ≤ d'.size
  operator? : ∀ x < d.size, d'.graph.operator? x = d.graph.operator? x
  reads : ∀ x < d.size, ∀ i, d'.graph.Reads x i ↔
    d.graph.Reads x i ∨ x ∈ ids ∧ i = ⟨y, 0, false⟩
  generators : d'.wiring.generators = d.wiring.generators
  finds : d'.Finds src d.size y (body.bodyPart src).answers
  reached : body.matchesTriple = true → ∀ x ∈ ids,
    ∃ m ∈ d'.wiring.tripleMatchers, Relation.TransGen d'.graph.Leads m x

/-- The body is drawn into the first head, and what this reads then is shared with the others. -/
theorem Supplied.shared {first : OperatorId} {others : List OperatorId} {body : Group}
    (hbody : Supplied src first 0 d d₁ [y] [body.bodyPart src])
    (hheads : ∀ x ∈ first :: others, (∃ pattern, d.graph.operator? x = some (.generate pattern)) ∧
      ∀ i, ¬ d.graph.Reads x i) (hd : d.Tracked) :
    (Draw.shareInputs ⟨first, 0⟩ (others.map (⟨·, 0⟩))).Ends d₁ fun _ d' =>
      BodyShared src d d' body (first :: others) y := by
  refine (ends_shareInputs_wired hbody.tracked _ _).mono fun _ d' hshare => ?_
  obtain ⟨hwiring, hwired⟩ := hshare
  have hlt : ∀ x ∈ first :: others, (x : Nat) < d.size := fun x hx =>
    hd.lt_size (hheads x hx).1.choose_spec
  have hreads₁ : ∀ x < d.size, ∀ i, d₁.graph.Reads x i ↔
      d.graph.Reads x i ∨ x = first ∧ i = ⟨y, 0, false⟩ := fun x hx i => by
    rw [hbody.grown.reads x hx, eq_input_iff]
  have hfirst : ∀ i, d₁.graph.Reads first i ↔ i = ⟨y, 0, false⟩ := fun i => by
    rw [hreads₁ first (hlt first List.mem_cons_self), and_iff_right rfl]
    exact or_iff_right ((hheads first List.mem_cons_self).2 i)
  have hshared : ∀ x i, d'.graph.Reads x i ↔
      d₁.graph.Reads x i ∨ x ∈ others ∧ i = ⟨y, 0, false⟩ := fun x i => by
    rw [hwired.reads]
    refine or_congr_right ?_
    simp only [Graph.mem_operand hbody.tracked.linked, hfirst, exists_eq_left, true_and,
      List.mem_map]
    constructor
    · rintro ⟨_, ⟨z, hz, rfl⟩, rfl, hsource, hi⟩
      exact ⟨hz, by rw [hi, hsource]⟩
    · rintro ⟨hx, rfl⟩
      exact ⟨_, ⟨x, hx, rfl⟩, rfl, rfl, rfl⟩
  have hd' : d'.Tracked := by
    refine Draft.Tracked.of_wired (fun x i => x ∈ others ∧ i = ⟨y, 0, false⟩) hbody.tracked hwiring
      ⟨hwired.linked, hwired.length, hwired.operator?, hshared⟩ fun x i hx => ?_
    obtain ⟨hx, rfl⟩ := hx
    obtain ⟨pattern, hop⟩ := (hheads x (List.mem_cons_of_mem _ hx)).1
    refine ⟨fun hm => ?_, rfl⟩
    obtain ⟨q, hq⟩ := (hbody.tracked.matchers x).1 hm
    rw [hbody.grown.operator? x (hlt x (List.mem_cons_of_mem _ hx)), hop] at hq
    cases hq
  obtain ⟨hfinds, -⟩ := List.forall₂_cons.1 hbody.finds
  refine ⟨hd', ?_, fun x hx => ?_, fun x hx i => ?_, ?_, ?_, fun hm x hx => ?_⟩
  · exact hbody.grown.size_le.trans_eq hwired.length.symm
  · rw [hwired.operator?, hbody.grown.operator? x hx]
  · rw [hshared, hreads₁ x hx, or_assoc, ← or_and_right, List.mem_cons]
  · rw [hwiring, hbody.generators]
  · refine hfinds.keep hwired.length.ge fun z hz _ => ⟨hwired.operator? z, fun _ i => ?_⟩
    have hz' : z ∉ others := fun h => Nat.not_lt.2 hz (hlt z (List.mem_cons_of_mem _ h))
    simp [hshared, hz']
  · obtain ⟨m, hm, hleads⟩ := hbody.reached _ (List.mem_singleton_self _) hm
    -- the first head is reached through the producer that all heads read
    obtain ⟨z, hz, hlast⟩ := Relation.TransGen.tail'_iff.1 (Graph.transGen_leads_mono
      hbody.tracked.linked hd'.linked (fun x i hi => (hshared x i).2 (.inl hi)) hleads)
    have hread : ∀ x ∈ first :: others, d'.graph.Reads x ⟨y, 0, false⟩ := fun x hx => by
      rw [hshared, hreads₁ x (hlt x hx), or_assoc]
      exact .inr ((List.mem_cons.1 hx).imp (⟨·, rfl⟩) (⟨·, rfl⟩))
    obtain ⟨i, hi, rfl⟩ := (Graph.leads_iff hd'.linked).1 hlast
    have hi : i = ⟨y, 0, false⟩ := ((hshared first i).1 hi).elim (hfirst i).1 And.right
    refine ⟨m, hwiring ▸ hm, .tail' hz ((Graph.leads_iff hd'.linked).2 ⟨_, hread x hx, ?_⟩)⟩
    rw [hi]

/-- A rule has been added to a draft. -/
structure RuleAdded (src : Source) (d d' : Draft) (rule : Rule) (ids : List OperatorId) :
    Prop where
  tracked : d'.Tracked
  grown : d.Grown d' 1 fun i => i.source ∈ ids ∧ i = ⟨i.source, 0, false⟩
  generators : d'.wiring.generators = d.wiring.generators ++ ids
  concludes : List.Forall₂ (d'.Concludes src) ids rule.clauses

theorem HeadsAdded.ruleAdded (h : HeadsAdded d d₁ rule.heads ids) (hd : d.Tracked)
    (hbody : BodyShared src d₁ d' rule.body ids y) : RuleAdded src d d' rule ids where
  tracked := hbody.tracked
  grown :=
    { size_le := Nat.le_trans h.grown.size_le hbody.size_le
      operator? := fun x hx => by
        rw [hbody.operator? x (Nat.lt_of_lt_of_le hx h.grown.size_le), h.grown.operator? x hx]
      reads := fun x hx i => by
        have hnot : x ∉ ids := fun hmem => by
          obtain ⟨-, -, hle, -⟩ := exists_of_forall₂ h.heads hmem
          exact Nat.not_lt.2 hle hx
        rw [hbody.reads x (Nat.lt_of_lt_of_le hx h.grown.size_le), h.grown.reads x hx]
        simp [hnot] }
  generators := by rw [hbody.generators, h.generators]
  concludes := by
    refine List.forall₂_map_right_iff.2 (((List.forall₂_and_left (p := (· ∈ ids)) _ _).2
      ⟨fun _ hx => hx, h.heads⟩).imp fun x head hx => ?_)
    obtain ⟨hmem, -, ⟨pattern, hhead, hop⟩, hunread⟩ := hx
    have hlt := h.tracked.lt_size hop
    refine ⟨⟨pattern, hhead, (hbody.operator? x hlt).trans hop⟩, ⟨y, fun i => ?_, ?_⟩,
      fun hm => hbody.reached hm x hmem⟩
    · simp [hbody.reads x hlt, hunread, hmem]
    · exact hbody.finds.mono (Nat.le_trans hd.result_lt h.grown.size_le)

theorem Rule.ends_draw_added (src : Source) (hp : p.ForRules) (hd : d.Tracked)
    (hheads : ∀ head ∈ rule.heads, ∃ pattern, head = .triple pattern)
    (hbody : rule.body.isBody = true) :
    (rule.draw p ⟨1, 0⟩).Ends d fun _ d' => ∃ ids, RuleAdded src d d' rule ids := by
  unfold Rule.draw
  refine (ends_addHeads hd hheads).bind fun cs d₁ hadded => ?_
  obtain ⟨ids, rfl, hadded⟩ := hadded
  cases ids with
  | nil => exact Edit.ends_throw
  | cons first others =>
      have hnew : ∀ x ∈ first :: others,
          (∃ pattern, d₁.graph.operator? x = some (.generate pattern)) ∧
            ∀ i, ¬ d₁.graph.Reads x i := fun x hx => by
        obtain ⟨-, -, -, ⟨pattern, -, hop⟩, hunread⟩ := exists_of_forall₂ hadded.heads hx
        exact ⟨⟨pattern, hop⟩, hunread⟩
      obtain ⟨pattern, hop⟩ := (hnew first List.mem_cons_self).1
      have hdraw : Supplies src (rule.body.draw p none) (rule.body.bodyPart src) :=
        rule.body.supplies hp hbody
      have hopen : (Cursor.mk first 0).Open d₁ :=
        ⟨_, hop, fun _ h => Kind.noConfusion (congrArg Operator.kind h)⟩
      refine (hdraw ⟨first, 0⟩ d₁ hadded.tracked hopen).bind fun _ d₂ hsupplied => ?_
      obtain ⟨y, hsupplied⟩ := hsupplied
      exact (hsupplied.shared hnew hadded.tracked).mono fun _ d' hshared =>
        ⟨_, hadded.ruleAdded hd hshared⟩

/-! ## Programs -/

/-- The rules have been added to a draft, whose result reads all heads. -/
structure Draft.Programmed (src : Source) (d : Draft) (output : RuleOutput) (rules : List Rule) :
    Prop where
  tracked : d.Tracked
  result : d.graph.operator? 1 = some (.result (.materialize output))
  reads : ∀ i, d.graph.Reads 1 i ↔ i.source ∈ d.wiring.generators ∧ i = ⟨i.source, 0, false⟩
  concludes : List.Forall₂ (d.Concludes src) d.wiring.generators (rules.flatMap Rule.clauses)

theorem RuleAdded.programmed {done : List Rule} (h : RuleAdded src d d' rule ids)
    (hd : d.Programmed src output done) : d'.Programmed src output (done ++ [rule]) where
  tracked := h.tracked
  result := (h.grown.operator? _ hd.tracked.result_lt).trans hd.result
  reads i := by
    rw [h.grown.reads _ hd.tracked.result_lt, hd.reads, h.generators, List.mem_append,
      or_and_right]
    simp
  concludes := by
    rw [h.generators, List.flatMap_append, List.flatMap_singleton]
    exact List.rel_append (hd.concludes.imp fun _ _ hx => hx.grown hd.tracked h.tracked h.grown)
      h.concludes

/-- An empty draft holds its root. -/
theorem Draft.wired_empty (hgraph : d.graph = .empty) :
    d.graph.Wired 1 (fun x => if x = Graph.root then some .root else none) fun _ _ => False where
  linked := hgraph ▸ Graph.linked_empty
  length := by rw [hgraph]; rfl
  operator? x := hgraph ▸ Graph.operator?_empty x
  reads x i := iff_false_intro (hgraph ▸ Graph.not_reads_empty i)

/-- The result of a rule program is added to an empty draft. -/
theorem ends_addResult_programmed (src : Source) (hgraph : d.graph = .empty)
    (hwiring : d.wiring = .none) :
    (Draw.addResult (.materialize output)).Ends d fun c d' =>
      c = ⟨1, 0⟩ ∧ d'.Programmed src output [] := by
  unfold Draw.addResult Draw.add Draw.onGraph
  refine Edit.ends_bind.2 (Edit.ends_within.2 ?_)
  refine (Graph.wired_add (Draft.wired_empty hgraph) (.result (.materialize output))).mono
    fun id g' hadd => Edit.ends_pure.2 ?_
  obtain ⟨rfl, hadd⟩ := hadd
  have hno : ∀ x i, ¬ g'.Reads x i := fun x i => (hadd.reads x i).1
  have hops : ∀ x op, g'.operator? x = some op →
      x = 1 ∧ op = .result (.materialize output) ∨ x = Graph.root ∧ op = .root := fun x op hop => by
    rw [hadd.operator?] at hop
    split at hop
    · next hx => exact .inl ⟨hx, (Option.some.inj hop).symm⟩
    · split at hop
      · next hx => exact .inr ⟨hx, (Option.some.inj hop).symm⟩
      · cases hop
  have hresult : g'.operator? 1 = some (.result (.materialize output)) := by
    rw [hadd.operator?, if_pos rfl]
  refine ⟨rfl, ⟨hadd.linked, ?_, ⟨_, hresult⟩, fun x i hi => absurd hi (hno x i),
    fun x op hop hx => ?_, fun x => ?_, fun x _ => hno x, ?_⟩, hresult, fun i => ?_, ?_⟩
  · rw [hadd.operator?, if_neg (by decide), if_pos rfl]
  · rcases hops x op hop with ⟨rfl, -⟩ | ⟨-, rfl⟩
    · exact absurd rfl hx
    · exact ⟨rfl, by simp [Operator.kind]⟩
  · show x ∈ d.wiring.tripleMatchers ↔ _
    rw [hwiring]
    refine iff_of_false List.not_mem_nil ?_
    rintro ⟨q, hq⟩
    rcases hops x _ hq with ⟨-, hop⟩ | ⟨-, hop⟩ <;> cases hop
  · show d.wiring.atomHeads = []
    rw [hwiring]
    rfl
  · show g'.Reads 1 i ↔ i.source ∈ d.wiring.generators ∧ _
    rw [hwiring]
    exact iff_of_false (hno 1 i) fun h => absurd h.1 List.not_mem_nil
  · show List.Forall₂ _ d.wiring.generators []
    rw [hwiring]
    exact .nil

/-- The graph of a drawn program, in which heads are fed back to matchers. -/
structure Graph.Recursive (src : Source) (G : Graph Plan) (d : Draft) (r : RuleProgram) :
    Prop where
  programmed : d.Programmed src r.output r.rules
  wired : G.Wired d.size d.graph.operator? fun x i => d.graph.Reads x i ∨
    i.source ∈ d.wiring.generators ∧ x ∈ d.wiring.tripleMatchers ∧ i = ⟨i.source, 0, true⟩

variable {r : RuleProgram}

theorem RuleProgram.ends_draw_recursive (src : Source) (hr : r.OnTriples)
    (hscans : ∃ dataset known, p.scans = .ofStore dataset known) (hgraph : d.graph = .empty)
    (hwiring : d.wiring = .none) :
    (r.draw p).Ends d fun _ d' => ∃ d₁, d'.graph.Recursive src d₁ r := by
  have hp : ({ p with inRules := true } : Planner).ForRules := ⟨rfl, hscans⟩
  unfold RuleProgram.draw
  refine (ends_addResult_programmed src hgraph hwiring).bind fun c d₁ hresult => ?_
  obtain ⟨rfl, hresult⟩ := hresult
  refine (Edit.ends_forM_of_step (fun done (d₂ : Draft) => d₂.Programmed src r.output done) hresult
    fun done rule rest hrules d₂ h₂ => ?_).bind fun _ d₂ h₂ => Edit.ends_bind.2 (Edit.ends_get.2 ?_)
  · have hrule : rule ∈ r.rules := hrules ▸ by simp
    refine (rule.ends_draw_added src hp h₂.tracked (hr.heads rule hrule)
      (hr.bodies rule hrule).1).mono fun _ d₃ hadded => ?_
    obtain ⟨ids, hadded⟩ := hadded
    exact hadded.programmed h₂
  · unfold Draw.onGraph
    refine Edit.ends_within.2 ((d₂.wiring.ends_link d₂.graph).mono fun _ g' hlinked => ?_)
    refine ⟨d₂, h₂, ?_⟩
    have hlinks : ∀ s e, (s, e) ∈ d₂.wiring.links ↔ s ∈ d₂.wiring.generators ∧
        e.target ∈ d₂.wiring.tripleMatchers ∧ e.operand = 0 ∧ e.feedback = true := fun s e => by
      rw [Wiring.links, h₂.tracked.atomHeads, List.mem_append, mem_linkEdges, mem_linkEdges]
      exact or_iff_left fun h => List.not_mem_nil h.1
    have htargets : ∀ e ∈ d₂.wiring.links, d₂.graph.contains e.2.target = true := fun e he => by
      obtain ⟨q, hq⟩ := (h₂.tracked.matchers _).1 ((hlinks e.1 e.2).1 he).2.1
      exact h₂.tracked.wired.contains_iff.2 (by simp [hq])
    rw [hlinked]
    refine (Graph.wired_pushed h₂.tracked.linked htargets).congr (fun _ => rfl) fun x i => ?_
    rw [hlinks]
    refine or_congr_right ⟨?_, ?_⟩
    · rintro ⟨-, hsource, hx, hoperand, hfeedback⟩
      obtain ⟨source, operand, feedback⟩ := i
      obtain rfl : operand = 0 := hoperand
      obtain rfl : feedback = true := hfeedback
      exact ⟨hsource, hx, rfl⟩
    · rintro ⟨hsource, hx, hi⟩
      obtain ⟨clause, -, hconcludes⟩ := exists_of_forall₂ h₂.concludes hsource
      obtain ⟨pattern, -, hop⟩ := hconcludes.operator
      refine ⟨h₂.tracked.wired.contains_iff.2 (by simp [hop]), hsource, hx, ?_⟩
      rw [hi]
      exact ⟨rfl, rfl⟩

/-- A rule program is prepared as the graph of its rules. -/
theorem RuleProgram.ends_prepare_recursive (src : Source) (hr : r.OnTriples)
    (hscans : ∃ dataset known, p.scans = .ofStore dataset known) :
    (r.prepare p).Ends d fun prepared _ => prepared.dataset = p.dataset ∧
      ∃ d₁, prepared.plan.graph.Recursive src d₁ r := by
  intro prepared d' hrun
  obtain ⟨d₁, G, hdraw, hfinish, rfl⟩ := prepared_eq_ok hrun
  obtain ⟨d₂, hdrawn, hwired⟩ := RuleProgram.ends_draw_recursive src hr hscans rfl rfl () d₁ hdraw
  exact ⟨rfl, d₂, hdrawn, Graph.wired_updateVariables hwired () G hfinish⟩

end QuadAlgebra
