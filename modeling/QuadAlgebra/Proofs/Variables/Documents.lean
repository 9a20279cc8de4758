import QuadAlgebra.Proofs.Planning.Links
import QuadAlgebra.Proofs.Typing.Documents
import QuadAlgebra.Proofs.Variables.Patterns

/-!
# The variable sets of planned documents

Whatever document is planned, its plans are finished sketches (`Document.ends_prepare_finished`). So
the variable sets of all operators are right in every round of every evaluation, in the plans
themselves and in those nested in them; and for queries and updates they are right again, once
computed anew, in whatever the plans are rewritten to (`Document.planned_bounds`).
-/

namespace QuadAlgebra

variable {rules : Bool} {k k' : Sketch rules} {p : Planner}

/-! ## Shared inputs -/

namespace Sketches

/-- An operator that does not remove duplicates reads no union that is fed back. -/
theorem unlooped_of_reads {t : OperatorId} {op : Operator Plan} {i : Input}
    (hop : k.graph.operator? t = some op) (hkind : op.kind ∉ Operator.deduplicating)
    (hi : k.graph.Reads t i) : k.graph.Unlooped i.source := by
  intro j hunion hj
  cases hf : j.feedback with
  | false => rfl
  | true =>
      obtain ⟨-, ⟨op', hop', hkind'⟩, -⟩ := k.regular.loopUnion _ j hunion hj hf t i hi rfl
      obtain rfl := Option.some.inj (hop.symm.trans hop')
      exact absurd hkind' hkind

theorem shareInputs {first : Cursor} {others : List Cursor} {op : Operator Plan}
    (hop : k.graph.operator? first.target = some op) (hkind : op.kind ∉ Operator.deduplicating)
    (hothers : ∀ c ∈ others, k.Takes c) :
    Sketches k (Draw.shareInputs first others) fun k' _ => k.Extends k' := by
  intro d hd
  unfold Draw.shareInputs
  refine Edit.ends_bind.2 (Edit.ends_get.2 ?_)
  rw [hd.graph]
  refine (Sketches.forM fun c hc k₁ h₁ => .forM fun producer hproducer k₂ h₂ => ?_) d hd
  obtain ⟨i, hi, rfl⟩ := List.mem_map.1 hproducer
  have hi := k.regular.linked.mem_inputs.1 (List.mem_filter.1 hi).1
  have hle := h₁.trans h₂
  refine Sketches.feed ((hothers c hc).mono hle) (hle.unlooped ?_ (unlooped_of_reads hop hkind hi))
  exact ((Graph.Wired.of_linked k.regular.linked).ends_of_reads hi).2

/-- Drawings in a row, what each of them returns keeping its property during the later ones. -/
theorem mapM_extends {α β : Type} {l : List α} {f : α → Draw β} {out : Sketch rules → β → Prop}
    (hout : ∀ k' k'' b, Sketch.Extends k' k'' → out k' b → out k'' b)
    (h : ∀ a ∈ l, ∀ k', k.Extends k' → Sketches k' (f a) fun k'' b => k'.Extends k'' ∧ out k'' b) :
    Sketches k (l.mapM f) fun k' bs => k.Extends k' ∧ ∀ b ∈ bs, out k' b := by
  induction l generalizing k with
  | nil => exact .pure ⟨.refl, fun _ h => absurd h List.not_mem_nil⟩
  | cons a rest ih =>
      rw [List.mapM_cons]
      refine (h a List.mem_cons_self k .refl).bind fun k₁ b ⟨h₁, hb⟩ => ?_
      refine (ih fun a ha k' hk' => h a (List.mem_cons_of_mem _ ha) k' (h₁.trans hk')).bind
        fun k₂ bs ⟨h₂, hbs⟩ => .pure ⟨h₁.trans h₂, ?_⟩
      exact List.forall_mem_cons.2 ⟨hout k₁ k₂ b h₂ hb, hbs⟩

theorem addResult (form : ResultForm) : Sketches k (Draw.addResult form) fun k' c =>
    k.Extends k' ∧ k'.Takes c := by
  refine (Sketches.add (Operator.drawable_of_isOrdinary rfl) (by simp [Operator.kind])).bind
    fun k₁ id ⟨h₁, hopen, _⟩ => .pure ⟨h₁, hopen.takes (c := ⟨id, 0⟩) (by simp [Operator.kind]) ?_⟩
  exact fun he => Kind.noConfusion he

end Sketches

/-! ## Queries -/

/-- The drawing of a whole plan leads from any sketch to another one. -/
def BuildsSketch (rules : Bool) (build : Draw Unit) : Prop :=
  ∀ k : Sketch rules, Sketches k build fun _ _ => True

/-- What is built as a sketch is finished as a plan. -/
theorem ends_prepared_finished {dataset : Dataset} {build : Draw Unit} {d : Draft}
    (hbuild : BuildsSketch rules build) :
    (Draw.prepared dataset build).Ends d fun prepared _ => prepared.plan.Finished rules := by
  intro prepared d' hrun
  obtain ⟨d₁, G, hbuilt, hfinish, rfl⟩ := prepared_eq_ok hrun
  obtain ⟨k₀, hgraph, hwiring⟩ := Sketch.exists_empty rules
  obtain ⟨k₁, hd₁, -⟩ := hbuild k₀ _ ⟨hgraph.symm, hwiring.symm⟩ () d₁ hbuilt
  exact k₁.finished (hd₁.graph ▸ hfinish)

theorem buildsSketch_into {form : ResultForm} {draw : DrawInto} (hdraw : FeedsSketch rules draw) :
    BuildsSketch rules (do draw (← Draw.addResult form)) := fun _ =>
  (Sketches.addResult form).bind fun k₁ c h => (hdraw k₁ c h.2).mono fun _ _ _ => trivial

theorem feedsSketch_drawPattern (hp : p.inRules = true → rules = true) (hscans : p.ScansPatterns)
    (graph : Option Item) (pattern : Option Group) :
    FeedsSketch rules (drawPattern p graph pattern) := by
  cases pattern with
  | some g => exact g.feedsSketch hp hscans graph
  | none => exact .attachSource (.probe graph) rfl (by simp [Operator.kind])

theorem Query.buildsSketch (q : Query) (hp : p.inRules = true → rules = true)
    (hscans : p.ScansPatterns) : BuildsSketch rules (q.draw p) := by
  have hover {form : ResultForm} (op : Operator Plan) (hop : op.isPassing = true) {draw : DrawInto}
      (hdraw : FeedsSketch rules draw) : BuildsSketch rules (do
        let result ← Draw.addResult form
        draw (← result.attach op)) :=
    buildsSketch_into (.attach op hop hdraw)
  unfold Query.draw
  split
  · exact buildsSketch_into (q.feedsSketch hp hscans none)
  · exact hover _ rfl (q.feedsSketch hp hscans none)
  · exact hover _ rfl (feedsSketch_drawPattern hp hscans none q.pattern)
  · exact hover _ rfl (q.feedsSketch hp hscans none)

/-! ## Updates -/

/-- An operator that reads solutions or changes, and no union of a loop. -/
def Sketch.Reader (k : Sketch rules) (c : Cursor) : Prop :=
  k.Takes c ∧ ∃ op, k.graph.operator? c.target = some op ∧ op.kind ∉ Operator.deduplicating

theorem Sketch.Reader.mono {c : Cursor} (h : k.Reader c) (hle : k.Extends k') : k'.Reader c :=
  ⟨h.1.mono hle, h.2.imp fun _ hop => hop.imp_left (hle.operators _ _)⟩

theorem Sketches.attachReader {c : Cursor} {op : Operator Plan} (hc : k.Takes c)
    (hop : op.isPassing = true) (hkind : op.kind ∉ Operator.deduplicating) :
    Sketches k (c.attach op) fun k' c' => k.Extends k' ∧ k'.Reader c' := by
  obtain ⟨hop, hnot⟩ := Operator.isPassing_iff.1 hop
  simp only [List.mem_cons, List.not_mem_nil, or_false, not_or] at hnot
  refine (Sketches.attach hc (Operator.drawable_of_isOrdinary hop) (by simp [hnot])).mono
    fun k₁ c₁ ⟨h₁, hopen, hzero⟩ => ⟨h₁, hopen.takes (by simp [hnot]) fun _ => ?_, op,
      hopen.operator,
      hkind⟩
  exact hzero ▸ Nat.zero_le 1

theorem Sketches.attachChange {c : Cursor} {change : Operator Plan} {template : List QuadPattern}
    (hchange : change.isPassing = true) (hc : k.Takes c) :
    Sketches k (Planner.attachChange c change template) fun k' c' =>
      k.Extends k' ∧ k'.Reader c' := by
  unfold Planner.attachChange
  obtain ⟨hordinary, hkind⟩ := Operator.isPassing_iff.1 hchange
  simp only [List.mem_cons, List.not_mem_nil, or_false, not_or] at hkind
  refine (Sketches.attach hc (Operator.drawable_of_isOrdinary hordinary) (by simp [hkind])).bind
    fun k₁ c₁ ⟨h₁, hopen, hzero⟩ => ?_
  have hc₁ : k₁.Takes c₁ := hopen.takes (by simp [hkind]) fun _ => hzero ▸ Nat.zero_le 1
  exact (Sketches.attachReader hc₁ rfl (by simp [Operator.kind, Operator.deduplicating])).mono
    fun _ _ ⟨h₂, hc₂⟩ => ⟨h₁.trans h₂, hc₂⟩

/-- A drawing feeds the first of some cursors, and the others share what it feeds. -/
theorem Sketches.drawShared {draw : DrawInto} {cs : List Cursor} {cause : Malformed}
    (hdraw : FeedsSketch rules draw) : (∀ c ∈ cs, k.Reader c) →
    Sketches k (match cs with
      | [] => Draw.malformed cause
      | first :: others => do
        draw first
        Draw.shareInputs first others : Draw Unit) fun k' _ => k.Extends k' := by
  intro hcs
  cases cs with
  | nil => exact .malformed
  | cons first others =>
      have hfirst := hcs first List.mem_cons_self
      refine (hdraw k first hfirst.1).bind fun k₁ _ h₁ => ?_
      obtain ⟨-, op, hop, hkind⟩ := hfirst.mono h₁
      refine (Sketches.shareInputs hop hkind fun c hc => ?_).mono fun _ _ h₂ => h₁.trans h₂
      exact ((hcs c (List.mem_cons_of_mem _ hc)).mono h₁).1

theorem sketches_checkData (inserting : Bool) (quads : List QuadPattern) :
    Sketches k (checkData inserting quads) fun k' _ => k' = k :=
  .checks fun _ _ => .optionally .malformed (.ite (fun _ => .malformed) fun _ => .pure rfl)

theorem sketches_checkDeletion (template : List QuadPattern) :
    Sketches k (checkDeletion template) fun k' _ => k' = k := by
  unfold checkDeletion
  split
  · exact .malformed
  · exact .pure rfl

theorem sketches_requireTemplates (template : List QuadPattern) :
    Sketches k (p.requireTemplates template) fun k' _ => k' = k :=
  .ite (fun _ => .require) fun _ => .pure rfl

theorem buildsSketch_drawData (inserting : Bool) (quads : List QuadPattern) :
    BuildsSketch rules (drawData p inserting quads) := by
  intro k
  unfold drawData
  refine (Sketches.addResult _).bind fun k₁ result hstep => ?_
  obtain ⟨_, hresult⟩ := hstep
  refine (sketches_checkData inserting quads).bind fun k₂ _ hk => ?_
  subst hk
  refine (sketches_requireTemplates quads).bind fun k₃ _ hk => ?_
  subst hk
  refine (Sketches.attachChange (by split <;> rfl) hresult).bind fun k₄ c hstep => ?_
  obtain ⟨_, hc⟩ := hstep
  exact (FeedsSketch.attachSource (.probe none) rfl (by simp [Operator.kind]) k₄ c hc.1).mono
    fun _ _ _ => trivial

/-- A change for a template, unless the template is empty, before something else is done. -/
theorem sketches_attachUnlessEmpty {α : Type} {c : Cursor} {change : Operator Plan}
    {template : List QuadPattern} {next : List Cursor → Draw α} {post : Sketch rules → α → Prop}
    (hchange : change.isPassing = true) (hc : k.Takes c)
    (hnext : ∀ (k' : Sketch rules) (cs : List Cursor), k.Extends k' → (∀ c' ∈ cs, k'.Reader c') →
      Sketches k' (next cs) post) :
    Sketches k (if template.isEmpty then do
        let cs ← pure []
        next cs
      else do
        let c' ← Planner.attachChange c change template
        let cs ← pure [c']
        next cs) post :=
  .ite (fun _ => hnext k [] .refl fun _ h => absurd h List.not_mem_nil) fun _ =>
    (Sketches.attachChange hchange hc).bind fun k₁ c₁ ⟨h₁, hc₁⟩ =>
      hnext k₁ [c₁] h₁ fun _ h => List.mem_singleton.1 h ▸ hc₁

theorem Modification.buildsSketch (m : Modification) (hp : p.inRules = true → rules = true)
    (hscans : p.ScansPatterns) : BuildsSketch rules (m.draw p) := by
  intro k
  unfold Modification.draw
  dsimp only
  refine (sketches_checkDeletion _).bind fun k₁ _ hk => ?_
  subst hk
  refine .optionally .require ?_
  refine (Sketches.addResult _).bind fun k₂ result hstep => ?_
  obtain ⟨_, hresult⟩ := hstep
  refine (sketches_requireTemplates _).bind fun k₃ _ hk => ?_
  subst hk
  refine (sketches_requireTemplates _).bind fun k₄ _ hk => ?_
  subst hk
  refine sketches_attachUnlessEmpty rfl hresult fun k₅ deleting h₅ hdeleting => ?_
  refine sketches_attachUnlessEmpty rfl (hresult.mono h₅) fun k₆ inserting h₆ hinserting => ?_
  refine (Sketches.drawShared (m.pattern.feedsSketch hp hscans _) fun c hc => ?_).mono
    fun _ _ _ => trivial
  rcases List.mem_append.1 hc with hc | hc
  · exact (hdeleting c hc).mono h₆
  · exact hinserting c hc

theorem UpdateOperation.buildsSketch (op : UpdateOperation) (hp : p.inRules = true → rules = true)
    (hscans : p.ScansPatterns) : BuildsSketch rules (op.draw p) := by
  unfold UpdateOperation.draw
  split
  · exact buildsSketch_drawData true _
  · exact buildsSketch_drawData false _
  · intro k
    refine (Sketches.addResult _).bind fun k₁ result hstep => ?_
    obtain ⟨_, hresult⟩ := hstep
    refine (sketches_checkDeletion _).bind fun k₂ _ hk => ?_
    subst hk
    refine (sketches_requireTemplates _).bind fun k₃ _ hk => ?_
    subst hk
    refine (Sketches.attachChange rfl hresult).bind fun k₄ c hstep => ?_
    obtain ⟨_, hc⟩ := hstep
    exact (Group.feedsSketch _ hp hscans none k₄ c hc.1).mono fun _ _ _ => trivial
  · exact Modification.buildsSketch _ hp hscans
  · next c =>
    intro k
    refine (Sketches.addResult _).bind fun k₁ result hstep => ?_
    obtain ⟨_, hresult⟩ := hstep
    have hcommand : Sketches k₁ (do
        (← result.attach (.command c)).attachSource (.probe none) : Draw Unit) fun _ _ => True :=
      (FeedsSketch.attach (.command c) (by cases c <;> rfl)
        (.attachSource (.probe none) rfl (by simp [Operator.kind])) k₁ result hresult).mono
          fun _ _ _ => trivial
    dsimp only
    split
    · exact Sketches.require.bind fun _ _ hk => hk ▸ hcommand
    · exact hcommand

/-! ## Rule programs -/

/-- Heads that have been drawn may be wired. -/
theorem Wiring.Fits.head {w w' : Wiring} {g : Graph Plan} {id : OperatorId} {op : Operator Plan}
    (h : w.Fits g) (hop : g.operator? id = some op) (hkind : op.kind ≠ .union)
    (hheads : ∀ x ∈ w'.generators ++ w'.atomHeads, x ∈ w.generators ++ w.atomHeads ∨ x = id)
    (hmatchers : w'.tripleMatchers ++ w'.atomMatchers = w.tripleMatchers ++ w.atomMatchers) :
    w'.Fits g where
  heads x hx := by
    rcases hheads x hx with hx | rfl
    · exact h.heads x hx
    · exact ⟨op, hop, hkind⟩
  matchers := hmatchers ▸ h.matchers

theorem RuleHead.sketches_draw (hrules : rules = true) (head : RuleHead) :
    Sketches k head.draw fun k' id => k.Extends k' ∧ k'.Reader ⟨id, 0⟩ ∧ k'.graph.Unlooped id := by
  have hreader {op : Operator Plan} {id : OperatorId} {k' : Sketch rules} (hopen : k'.IsOpen id op)
      (hkind : op.kind = .generate ∨ op.kind = .constructAtom) : k'.Reader ⟨id, 0⟩ :=
    ⟨hopen.takes (c := ⟨id, 0⟩) (by rcases hkind with he | he <;> simp [he]) fun _ => Nat.zero_le 1,
      op, hopen.operator, by rcases hkind with he | he <;> simp [he, Operator.deduplicating]⟩
  cases head with
  | triple t =>
      have hdrawable : (Operator.generate t : Operator Plan).Drawable rules :=
        drawable_of_rules hrules rfl
      refine (Sketches.add hdrawable (by simp [Operator.kind])).bind fun k₁ id hstep => ?_
      obtain ⟨h₁, hopen, hunlooped⟩ := hstep
      refine (Sketches.remember (f := fun w => { w with generators := w.generators ++ [id] })
        ?_).bind fun k₂ _ h₂ =>
          .pure ⟨h₁.trans h₂.1, hreader (hopen.mono h₂.1) (.inl rfl), h₂.2 ▸ hunlooped⟩
      refine k₁.wired.head hopen.operator Kind.noConfusion (fun x hx => ?_) rfl
      simp only [List.mem_append, List.mem_singleton] at hx ⊢
      tauto
  | atom a =>
      have hdrawable : (Operator.constructAtom a : Operator Plan).Drawable rules :=
        drawable_of_rules hrules rfl
      refine (Sketches.add hdrawable (by simp [Operator.kind])).bind fun k₁ id hstep => ?_
      obtain ⟨h₁, hopen, hunlooped⟩ := hstep
      refine (Sketches.remember (f := fun w => { w with atomHeads := w.atomHeads ++ [id] })
        ?_).bind fun k₂ _ h₂ =>
          .pure ⟨h₁.trans h₂.1, hreader (hopen.mono h₂.1) (.inr rfl), h₂.2 ▸ hunlooped⟩
      refine k₁.wired.head hopen.operator Kind.noConfusion (fun x hx => ?_) rfl
      simp only [List.mem_append, List.mem_singleton] at hx ⊢
      tauto

theorem Rule.sketches_draw (hrules : rules = true) (hscans : p.ScansPatterns) (r : Rule)
    {result : Cursor} (hresult : k.Takes result) :
    Sketches k (r.draw p result) fun k' _ => k.Extends k' := by
  unfold Rule.draw
  have hheads : Sketches k (r.heads.mapM fun head => do
      let id ← head.draw
      result.feed id
      return (⟨id, 0⟩ : Cursor)) fun k' cs => k.Extends k' ∧ ∀ c ∈ cs, k'.Reader c := by
    refine Sketches.mapM_extends (fun _ _ _ h hc => hc.mono h) fun head _ k₁ h₁ => ?_
    refine (head.sketches_draw hrules).bind fun k₂ id ⟨h₂, hid, hunlooped⟩ => ?_
    refine (Sketches.feed ((hresult.mono h₁).mono h₂) hunlooped).bind fun k₃ _ h₃ => ?_
    exact .pure ⟨h₂.trans h₃, hid.mono h₃⟩
  refine hheads.bind fun k₂ cs ⟨h₂, hcs⟩ => ?_
  exact (Sketches.drawShared (r.body.feedsSketch (fun _ => hrules) hscans none) hcs).mono
    fun _ _ h₃ => h₂.trans h₃

/-! ### Feedback from heads to matchers -/

namespace Sketch

variable {x : OperatorId} {i : Input}

/-- Triples or facts are matched here. -/
def Matches (k : Sketch rules) (x : OperatorId) : Prop :=
  ∃ op, k.graph.operator? x = some op ∧ op.kind ∈ [.matchTriple, .matchAtom]

/-- Matchers have no shape. -/
theorem Matches.shape (h : k.Matches x) : k.shapes x = none := by
  obtain ⟨op, hop, hkind⟩ := h
  by_contra hshape
  obtain ⟨D, hD⟩ := Option.ne_none_iff_exists'.1 hshape
  have hsettled := k.regular.settled x op D hop hD
  simp only [List.mem_cons, List.not_mem_nil, or_false] at hkind
  have hsteady := ((Graph.settled_of_ne (by rcases hkind with he | he <;> simp [he])
    (by rcases hkind with he | he <;> simp [he])).1 hsettled).1
  rcases hkind with he | he <;> simp [he, Operator.steady] at hsteady

theorem not_matches_root : ¬ k.Matches Graph.root := fun h =>
  absurd (h.shape.symm.trans k.regular.root_shape) (Option.some_ne_none _).symm

/-- The feedback edges of a rule program lead from heads to matchers. -/
theorem matches_of_link {s : OperatorId} {e : Edge} (h : (s, e) ∈ k.wiring.links) :
    e.feedback = true ∧ (∃ op, k.graph.operator? s = some op ∧ op.kind ≠ .union) ∧
      k.Matches e.target := by
  rcases List.mem_append.1 h with h | h
  · obtain ⟨hs, ht, -, hf⟩ := mem_linkEdges.1 h
    exact ⟨hf, k.wired.heads s (List.mem_append_left _ hs),
      k.wired.matchers _ (List.mem_append_left _ ht)⟩
  · obtain ⟨hs, ht, -, hf⟩ := mem_linkEdges.1 h
    exact ⟨hf, k.wired.heads s (List.mem_append_right _ hs),
      k.wired.matchers _ (List.mem_append_right _ ht)⟩

/-- The graph in which heads feed matchers. -/
def linked (k : Sketch rules) : Graph Plan := (k.graph.pushed k.wiring.links).setParents

theorem wired_linked : k.linked.Wired k.graph.slots.length k.graph.operator? fun x i =>
    k.graph.Reads x i ∨ k.graph.contains i.source = true ∧
      (i.source, ⟨x, i.operand, i.feedback⟩) ∈ k.wiring.links :=
  Graph.wired_pushed k.regular.linked fun (_, _) he => by
    obtain ⟨-, -, op, hop, -⟩ := matches_of_link he
    exact (Graph.Wired.of_linked k.regular.linked).contains_iff.2 (by simp [hop])

/-- Only matchers read more than they did. -/
theorem reads_linked (hx : ¬ k.Matches x) : k.linked.Reads x i ↔ k.graph.Reads x i := by
  rw [wired_linked.reads, or_iff_left]
  exact fun ⟨_, h⟩ => hx (matches_of_link h).2.2

/-- Feedback edges extend the graph of a rule program at its matchers. -/
theorem extension_linked (hrules : rules = true) :
    Graph.Extension rules k.graph k.linked k.shapes k.shapes k.Matches where
  linked := wired_linked.linked
  unshaped _ hx := hx.shape
  same x _ := wired_linked.operator? x
  same_shape _ _ := rfl
  same_reads _ _ hx := reads_linked hx
  kept x op _ hop := (wired_linked.operator? x).trans hop
  fed x op hx hop := by
    obtain ⟨op', hop', hkind⟩ := hx
    obtain rfl := Option.some.inj (hop'.symm.trans ((wired_linked.operator? x).symm.trans hop))
    simp only [List.mem_cons, List.not_mem_nil, or_false] at hkind
    refine ⟨fun h => absurd (hrules.symm.trans h) (by decide), ?_, ?_, ?_⟩
    · rcases hkind with he | he <;> simp [he]
    · rcases hkind with he | he <;> simp [he]
    · rcases hkind with he | he <;> simp [he]
  settled x op D hx _ hD := absurd (hx.shape.symm.trans hD) (Option.some_ne_none D).symm
  feedback x i hx hi _ := by
    obtain ⟨op, hop, hkind⟩ := hx
    exact .inr ⟨op, (wired_linked.operator? x).trans hop, hkind⟩
  unlooped x i hx hi := by
    rcases (wired_linked.reads x i).1 hi with hi | ⟨-, h⟩
    · exact .inl hi
    · obtain ⟨-, ⟨_, hop, hkind⟩, -⟩ := matches_of_link h
      refine .inr (unlooped_of_ne fun op' hop' => ?_)
      obtain rfl := Option.some.inj (hop.symm.trans hop')
      exact hkind

theorem exists_linked (hrules : rules = true) (k : Sketch rules) :
    ∃ k' : Sketch rules, k'.graph = (k.graph.pushed k.wiring.links).setParents ∧
      k'.wiring = k.wiring :=
  ⟨{ graph := k.linked, wiring := k.wiring, shapes := k.shapes
     regular := (extension_linked hrules).regular k.regular
     unfed := fun i hi => k.unfed i ((reads_linked not_matches_root).1 hi)
     dead := fun x hx => k.dead x ((wired_linked.operator? x).symm.trans hx)
     nested := fun x op hop => k.nested x op ((wired_linked.operator? x).symm.trans hop)
     wired := k.wired.mono fun x _ hop => (wired_linked.operator? x).trans hop }, rfl, rfl⟩

end Sketch

/-- Rule programs are built as sketches. -/
theorem RuleProgram.buildsSketch (r : RuleProgram) (hscans : p.ScansPatterns) :
    BuildsSketch true (r.draw p) := by
  intro k
  unfold RuleProgram.draw
  refine (Sketches.addResult _).bind fun k₁ result ⟨_, hresult⟩ => ?_
  have hscans : ({ p with inRules := true } : Planner).ScansPatterns := hscans
  refine (Sketches.forM fun rule _ k₂ h₂ => rule.sketches_draw rfl hscans (hresult.mono h₂)).bind
    fun k₃ _ _ => ?_
  intro d hd
  refine Edit.ends_bind.2 (Edit.ends_get.2 ?_)
  rw [hd.wiring]
  obtain ⟨k₄, hgraph, hwiring⟩ := k₃.exists_linked rfl
  refine Sketches.onGraph ((Wiring.ends_link _ _).mono fun _ g' hg => ?_) d hd
  exact ⟨k₄, hgraph.trans hg.symm, hwiring, trivial⟩

/-! ## Documents -/

/-- What is drawn for a planner is drawn for it over other graphs, too. -/
theorem ends_prepare_within {clause : Option DatasetClause} {build : Planner → Draw Unit}
    {d : Draft}
    (hp : p.inRules = true → rules = true) (hscans : p.ScansPatterns)
    (hbuild : ∀ p' : Planner, (p'.inRules = true → rules = true) → p'.ScansPatterns →
      BuildsSketch rules (build p')) :
    (do
      let p' ← p.within clause
      Draw.prepared p'.dataset (build p') : Draw Prepared).Ends d
        fun prepared _ => prepared.plan.Finished rules := by
  refine (Planner.ends_within clause).bind fun p' d' hp' => ends_prepared_finished ?_
  rw [hp']
  exact hbuild _ hp hscans

/-- A finished plan, which has heads and matchers for rule programs only. -/
def Document.Finishes (doc : Document) (plan : Plan) : Prop :=
  ∃ rules, (rules = true → ∃ r, doc = .rules r) ∧ plan.Finished rules

theorem Document.ends_prepare_finished (doc : Document) (hrules : p.inRules = false)
    (hscans : p.ScansPatterns) {d : Draft} :
    (doc.prepare p).Ends d fun plans _ => ∀ prepared ∈ plans, doc.Finishes prepared.plan := by
  have hp : p.inRules = true → false = true := fun h => hrules.symm.trans h
  refine ends_prepare_of (fun q _ d => ?_) (fun u _ op d => ?_) fun r hr d => ?_
  · exact (ends_prepare_within hp hscans fun _ => q.buildsSketch).mono
      fun _ _ h => ⟨false, nofun, h⟩
  · exact (ends_prepare_within hp hscans fun _ => op.buildsSketch).mono
      fun _ _ h => ⟨false, nofun, h⟩
  · exact (ends_prepared_finished (r.buildsSketch hscans)).mono
      fun _ _ h => ⟨true, fun _ => ⟨r, hr⟩, h⟩

/-- The variable sets of a finished plan are right, and so are those of the plans nested in it. -/
theorem Plan.Finished.bounds_hold {plan part : Plan} (h : plan.Finished rules)
    (hpart : part.PartOf plan) : part.BoundsHold := by
  obtain ⟨rules', -, hfit⟩ := h.1.partOf hpart
  exact hfit.bounds_hold (h.2 part hpart)

/-- Whatever a plan without rules is rewritten to, its variable sets and those of the plans nested
in it can be computed, and they are right then. -/
theorem Plan.Fit.exists_bounds {plan q part : Plan} {provesEmpty : IndexScan → Bool}
    (h : plan.Fit false) (hq : plan.Rewritten provesEmpty q) (hpart : part.PartOf q) :
    ∃ g, Graph.updateVariables.runOn part.graph = (.ok (), g) ∧ (⟨g⟩ : Plan).BoundsHold := by
  obtain ⟨rules', hfalse, hfit⟩ := (h.rewritten hq).partOf hpart
  obtain rfl : rules' = false := Bool.eq_false_iff.2 fun hrules => Bool.noConfusion (hfalse hrules)
  obtain ⟨g, hrun⟩ := hfit.exists_updateVariables
  exact ⟨g, hrun, hfit.bounds_hold hrun⟩

/-- In every round of every evaluation, the solutions of an operator bind all variables that are
certain there and none that is not possible. That holds of all plans of a document and of the plans
nested in them. It holds as well of all that the plans of queries and updates are rewritten to, once
the variable sets have been computed again. -/
theorem Document.planned_bounds {doc : Document} {d d' : Draft} {plans : List Prepared}
    {prepared : Prepared} (hscans : p.ScansPatterns) (hrules : p.inRules = false)
    (h : (doc.prepare p).runOn d = (.ok plans, d')) (hmem : prepared ∈ plans) :
    (∀ part : Plan, part.PartOf prepared.plan → part.BoundsHold) ∧
    ((∀ r, doc ≠ .rules r) → ∀ (provesEmpty : IndexScan → Bool) (q part : Plan),
      prepared.plan.Rewritten provesEmpty q → part.PartOf q →
        ∃ g, Graph.updateVariables.runOn part.graph = (.ok (), g) ∧ (⟨g⟩ : Plan).BoundsHold) := by
  obtain ⟨rules, hdoc, hfinished⟩ :=
    doc.ends_prepare_finished hrules hscans plans d' h prepared hmem
  refine ⟨fun part hpart => hfinished.bounds_hold hpart,
    fun hplain provesEmpty q part hq hpart => ?_⟩
  obtain rfl : rules = false := Bool.eq_false_iff.2 fun hr =>
    have ⟨r, hdoc⟩ := hdoc hr
    hplain r hdoc
  exact hfinished.1.exists_bounds hq hpart

theorem planned_bounds_unnamed : ∃ prepared d',
    (unnamed.prepare (.ofStore .empty)).runOn .empty = (.ok [prepared], d') ∧
    (∀ part : Plan, part.PartOf prepared.plan → part.BoundsHold) ∧
    ((∀ r, unnamed ≠ .rules r) → ∀ (provesEmpty : IndexScan → Bool) (q part : Plan),
      prepared.plan.Rewritten provesEmpty q → part.PartOf q →
        ∃ g, Graph.updateVariables.runOn part.graph = (.ok (), g) ∧ (⟨g⟩ : Plan).BoundsHold) := by
  have hone : ((unnamed.prepare (.ofStore .empty)).runOn .empty).1.map List.length = .ok 1 := by
    decide +kernel
  cases hok : ((unnamed.prepare (.ofStore .empty)).runOn .empty).1 with
  | error e => rw [hok] at hone; cases hone
  | ok plans =>
      rw [hok] at hone
      obtain ⟨prepared, rfl⟩ := List.length_eq_one_iff.1 (Except.ok.inj hone)
      refine ⟨prepared, _, Prod.ext hok rfl, ?_⟩
      exact Document.planned_bounds (Planner.scansPatterns_ofStore rfl) rfl (Prod.ext hok rfl)
        (List.mem_singleton.2 rfl)

end QuadAlgebra
