import QuadAlgebra.Proofs.Optimization.Termination
import QuadAlgebra.Proofs.Typing.Patterns

/-!
# Plans of queries are plain

Whatever a query or an update is planned to, each step of the drawing adds an operator that is no
head and no matcher, or an edge to an operator other than the root. So the plans of queries and
updates are plain (`Query.prepare_plain`, `UpdateOperation.prepare_plain`): nothing feeds the root,
there are no heads and matchers, and that holds of nested plans as well.
-/

namespace QuadAlgebra

/-! ## Operators and graphs -/

/-- The operator is no head and no matcher, and plans nested in it are plain. -/
def Operator.Ordinary (op : Operator Plan) : Prop :=
  op.kind ∉ Graph.ruleKinds ∧ ∀ e ∈ op.nested, e.2.Plain

namespace Operator

variable {op : Operator Plan}

/-- The operator is no head and no matcher, and nothing is nested in it. -/
def isOrdinary : Operator Plan → Bool
  | .filter f => f.nested.isEmpty
  | op => !Graph.ruleKinds.contains op.kind

/-- The test on operators is sound: where nothing is nested, only the kind matters. -/
theorem ordinary_of_isOrdinary (h : op.isOrdinary = true) : op.Ordinary := by
  have hfilter {f : Filter Plan} (h : f.nested.isEmpty = true) : (Operator.filter f).Ordinary :=
    ⟨show Kind.filter ∉ Graph.ruleKinds by decide, fun e he => by
      have he : e ∈ f.nested := he
      rw [List.isEmpty_iff.1 h] at he
      cases he⟩
  cases op with
  | filter f => exact hfilter h
  | _ => exact ⟨by simpa [isOrdinary] using h, fun e he => absurd he List.not_mem_nil⟩

end Operator

/-- A graph whose root is fed by nobody is sane once its variable sets have been computed. -/
theorem Graph.sane_of_updateVariables {γ : Type} {g g' : Graph γ} {size : Nat}
    {ops : OperatorId → Option (Operator γ)} {reads : OperatorId → Input → Prop}
    (h : g.Wired size ops reads) (hroot : ops Graph.root = some .root)
    (hunfed : ∀ i, ¬ reads Graph.root i)
    (hfinish : updateVariables.runOn g = (.ok (), g')) : g'.Sane := by
  have hwired := wired_updateVariables h _ _ hfinish
  obtain ⟨⟨order, horder⟩, -⟩ := updateVariables_eq_ok hfinish
  obtain ⟨rank, hrank⟩ := (topologicalOrder_spec horder).exists_rank
  refine .of_wired hwired hroot ⟨fun x => if x = Graph.root then 0 else rank x + 1,
    if_pos rfl, fun x i hi hf => ?_⟩
  have hx : x ≠ Graph.root := by
    rintro rfl
    exact hunfed i hi
  rw [if_neg hx]
  split
  · exact Nat.succ_pos _
  · obtain ⟨hlive, hsource⟩ := h.ends_of_reads hi
    refine Nat.succ_lt_succ (hrank _ (mem_ids.2 (h.contains_iff.2 hsource)) _ ?_)
    exact mem_forward.2 ⟨h.contains_iff.2 hlive, _, (h.reads x i).2 hi, rfl, hf⟩

/-- A graph as drawings of queries leave it. -/
structure Graph.Drawn (g : Graph Plan) : Prop where
  linked : g.Linked
  root : g.operator? Graph.root = some .root
  unfed : ∀ i, ¬ g.Reads Graph.root i
  ordinary : ∀ id op, g.operator? id = some op → op.Ordinary

namespace Graph.Drawn

variable {g g' : Graph Plan} {size : Nat} {ops : OperatorId → Option (Operator Plan)}
  {reads : OperatorId → Input → Prop}

/-- A drawn graph is described by its own operators and edges. -/
theorem wired (h : g.Drawn) : g.Wired g.slots.length g.operator? g.Reads := .of_linked h.linked

/-- A graph is drawn if its description has a root that nothing feeds and ordinary operators
only. -/
theorem of_wired (h : g'.Wired size ops reads) (hroot : ops Graph.root = some .root)
    (hunfed : ∀ i, ¬ reads Graph.root i)
    (hordinary : ∀ id op, ops id = some op → op.Ordinary) : g'.Drawn where
  linked := h.linked
  root := (h.operator? _).trans hroot
  unfed i hi := hunfed i ((h.reads _ i).1 hi)
  ordinary id op hop := hordinary id op ((h.operator? id).symm.trans hop)

/-- A drawn graph that is finished is the graph of a plain plan. -/
theorem plain (h : g.Drawn) (hfinish : updateVariables.runOn g = (.ok (), g')) :
    (⟨g'⟩ : Plan).Plain := by
  have hwired := wired_updateVariables h.wired _ _ hfinish
  have hordinary {id : OperatorId} {op : Operator Plan} (hop : g'.operator? id = some op) :
      op.Ordinary := h.ordinary id op ((hwired.operator? id).symm.trans hop)
  exact .intro _ (sane_of_updateVariables h.wired h.root h.unfed hfinish)
    (fun id op hop => ⟨(hordinary hop).1, fun _ _ => trivial⟩) fun id op hop => (hordinary hop).2

end Graph.Drawn

/-- Drawing starts with the root alone. -/
theorem Graph.drawn_empty : (Graph.empty : Graph Plan).Drawn := by
  refine ⟨linked_empty, rfl, not_reads_empty, fun id op hop => ?_⟩
  obtain ⟨-, rfl⟩ := eq_root_of_empty hop
  exact Operator.ordinary_of_isOrdinary rfl

/-! ## Drawings -/

/-- The drawing keeps a draft drawn, and what it returns has a property. -/
def KeepsDrawn {α : Type} (post : α → Prop) (draw : Draw α) : Prop :=
  ∀ d : Draft, d.graph.Drawn → draw.Ends d fun a d' => d'.graph.Drawn ∧ post a

namespace KeepsDrawn

variable {α β : Type} {post : α → Prop} {post' : β → Prop} {draw : Draw α}

/-- What has been decided before is returned without drawing anything. -/
theorem pure {a : α} (ha : post a) : KeepsDrawn post (Pure.pure a : Draw α) :=
  fun _ h => Edit.ends_pure.2 ⟨h, ha⟩

/-- A malformed request is refused, which leaves nothing to be shown. -/
theorem malformed {cause : Malformed} : KeepsDrawn post (Draw.malformed cause : Draw α) :=
  fun _ _ => Draw.ends_malformed

theorem unsupported {cause : Unsupported} : KeepsDrawn post (Draw.unsupported cause : Draw α) :=
  fun _ _ => Draw.ends_unsupported

/-- What one drawing returns the next one may rely on. -/
theorem bind {f : α → Draw β} (h : KeepsDrawn post draw)
    (hf : ∀ a, post a → KeepsDrawn post' (f a)) : KeepsDrawn post' (draw >>= f) :=
  fun d hd => (h d hd).bind fun a d' ⟨hd', ha⟩ => hf a ha d' hd'

/-- Nothing is drawn after a failure. -/
theorem stopped {cause : Malformed} {f : α → Draw β} :
    KeepsDrawn post' ((Draw.malformed cause : Draw α) >>= f) :=
  fun _ _ => Edit.ends_bind.2 Draw.ends_malformed

/-- Whichever branch is taken, it keeps drafts drawn. -/
theorem ite {c : Prop} [Decidable c] {first second : Draw α} (h : KeepsDrawn post first)
    (h' : KeepsDrawn post second) : KeepsDrawn post (if c then first else second) := by
  split
  · exact h
  · exact h'

/-- A check that may be left out before something else is done. -/
theorem optionally {c : Prop} [Decidable c] {check : Draw Unit} {next : Unit → Draw α}
    (hcheck : KeepsDrawn (fun _ => True) check) (hnext : KeepsDrawn post (next ())) :
    KeepsDrawn post (if c then check >>= next else next ()) :=
  ite (bind hcheck fun _ _ => hnext) hnext

/-- Less may be said of what is returned. -/
theorem mono {post' : α → Prop} (h : KeepsDrawn post draw) (hpost : ∀ a, post a → post' a) :
    KeepsDrawn post' draw := fun d hd => (h d hd).mono fun _ _ ⟨hd', ha⟩ => ⟨hd', hpost _ ha⟩

/-- Numbers may be handed out, and operators remembered. -/
theorem of_graph_eq (h : ∀ d : Draft, draw.Ends d fun _ d' => d'.graph = d.graph) :
    KeepsDrawn (fun _ => True) draw :=
  fun d hd => (h d).mono fun _ _ hgraph => ⟨hgraph ▸ hd, trivial⟩

/-- Drawings for each element of a list, one after the other. -/
theorem forM {l : List β} {f : β → Draw PUnit} (h : ∀ b ∈ l, KeepsDrawn (fun _ => True) (f b)) :
    KeepsDrawn (fun _ => True) (l.forM f) := fun d hd =>
  (Edit.keeps_forM (P := fun d : Draft => d.graph.Drawn) (fun b hb d hd =>
    (h b hb d hd).mono fun _ _ hd' => hd'.1) d hd).mono fun _ _ hd' => ⟨hd', trivial⟩

/-- Drawings for each element of a list, the results of which all have the property. -/
theorem mapM {l : List β} {f : β → Draw α} (h : ∀ b ∈ l, KeepsDrawn post (f b)) :
    KeepsDrawn (fun as => ∀ a ∈ as, post a) (l.mapM f) := by
  induction l with
  | nil =>
      rw [List.mapM_nil]
      exact pure fun _ ha => absurd ha List.not_mem_nil
  | cons b rest ih =>
      rw [List.mapM_cons]
      refine (h b List.mem_cons_self).bind fun a ha => ?_
      refine (ih fun b hb => h b (List.mem_cons_of_mem _ hb)).bind fun as has => pure ?_
      exact List.forall_mem_cons.2 ⟨ha, has⟩

/-- Drawings in a row, each of which starts from what the one before has returned. -/
theorem foldlM {l : List β} {f : α → β → Draw α} {a : α} (ha : post a)
    (h : ∀ a, post a → ∀ b ∈ l, KeepsDrawn post (f a b)) : KeepsDrawn post (l.foldlM f a) := by
  induction l generalizing a with
  | nil => exact pure ha
  | cons b rest ih =>
      rw [List.foldlM_cons]
      refine (h a ha b List.mem_cons_self).bind fun a' ha' => ?_
      exact ih ha' fun a ha b hb => h a ha b (List.mem_cons_of_mem _ hb)

/-! ### Single steps -/

/-- A new operator that is ordinary is not the root, and reads nothing yet. -/
theorem add (op : Operator Plan) (hop : op.Ordinary) :
    KeepsDrawn (· ≠ Graph.root) (Draw.add op) := by
  intro d hd
  unfold Draw.add Draw.onGraph
  refine Edit.ends_within.2 ((Graph.wired_add hd.wired op).mono fun id g' ⟨hid, h'⟩ => ?_)
  have hlt : Graph.root < d.graph.slots.length := hd.wired.lt_of_ne_none (by simp [hd.root])
  have hne : id ≠ Graph.root := fun he => absurd (hid.symm.trans he) hlt.ne'
  refine ⟨.of_wired h' ((if_neg hne.symm).trans hd.root) hd.unfed fun x op' hop' => ?_, hne⟩
  split at hop'
  · exact Option.some.inj hop' ▸ hop
  · exact hd.ordinary x op' hop'

/-- An edge may lead to any operator but the root. -/
theorem link {s t : OperatorId} (operand : Nat) (feedback : Bool) (ht : t ≠ Graph.root) :
    KeepsDrawn (fun _ => True) (Draw.onGraph (Graph.connect s t operand feedback)) := by
  refine fun d hd => Edit.ends_within.2 ((Graph.wired_connect hd.wired operand feedback).mono
    fun _ g' ⟨_, _, h'⟩ => ⟨.of_wired h' hd.root (fun i hi => ?_) hd.ordinary, trivial⟩)
  rcases hi with hi | ⟨he, -⟩
  · exact hd.unfed i hi
  · exact ht he.symm

theorem connect {s t : OperatorId} (operand : Nat) (ht : t ≠ Graph.root) :
    KeepsDrawn (fun _ => True) (Draw.connect s t operand) := link operand false ht

theorem freshVar : KeepsDrawn (fun _ => True) Draw.freshVar := by
  refine of_graph_eq fun d => ?_
  unfold Draw.freshVar
  exact Edit.ends_bind.2 (Edit.ends_get.2 (Edit.ends_bind.2 (Edit.ends_set.2
    (Edit.ends_pure.2 rfl))))

theorem addSource (op : Operator Plan) (hop : op.Ordinary) :
    KeepsDrawn (· ≠ Graph.root) (Draw.addSource op) :=
  (add op hop).bind fun _ hid => (connect 0 hid).bind fun _ _ => pure hid

/-- An ordinary operator may be attached anywhere but at the root, and what follows is attached to
it. -/
theorem attach {c : Cursor} (op : Operator Plan) (hop : op.Ordinary) (hc : c.target ≠ Graph.root) :
    KeepsDrawn (fun c' => c'.target ≠ Graph.root) (c.attach op) :=
  (add op hop).bind fun _ hid => (connect c.operand hc).bind fun _ _ => pure hid

/-- Ordinary operators may be attached one below the other. -/
theorem attachAll {c : Cursor} {ops : List (Operator Plan)} (hops : ∀ op ∈ ops, op.Ordinary)
    (hc : c.target ≠ Graph.root) :
    KeepsDrawn (fun c' => c'.target ≠ Graph.root) (c.attachAll ops) :=
  foldlM hc fun _ hc op hop => attach op (hops op hop) hc

theorem attachSource {c : Cursor} (op : Operator Plan) (hop : op.Ordinary)
    (hc : c.target ≠ Graph.root) : KeepsDrawn (fun _ => True) (c.attachSource op) :=
  (addSource op hop).bind fun _ _ => connect c.operand hc

/-- A producer may feed any operator but the root. -/
theorem feed {c : Cursor} {producer : OperatorId} (hc : c.target ≠ Graph.root) :
    KeepsDrawn (fun _ => True) (c.feed producer) := connect c.operand hc

theorem require {enabled : Bool} {feature : String} :
    KeepsDrawn (fun _ => True) (Planner.require enabled feature) := ite (pure trivial) unsupported

end KeepsDrawn

/-! ## Paths -/

/-- Between any two items the path keeps drafts drawn. -/
def PathKeepsDrawn (path : DrawPath) : Prop := ∀ s o, KeepsDrawn (fun _ => True) (path s o)

namespace PathPlanner

variable {pp : PathPlanner} {path : DrawPath}

theorem keepsDrawn_scan (p : TriplePattern) : KeepsDrawn (fun _ => True) (pp.scan p) :=
  (KeepsDrawn.addSource _ (Operator.ordinary_of_isOrdinary rfl)).mono fun _ _ => trivial

theorem keepsDrawn_probe : KeepsDrawn (fun _ => True) pp.probe :=
  (KeepsDrawn.addSource _ (Operator.ordinary_of_isOrdinary rfl)).mono fun _ _ => trivial

/-- An ordinary operator above another one, whichever this is. -/
theorem keepsDrawn_above {input : OperatorId} (op : Operator Plan) (hop : op.isOrdinary = true) :
    KeepsDrawn (· ≠ Graph.root) (above input op) :=
  (KeepsDrawn.add op (Operator.ordinary_of_isOrdinary hop)).bind fun _ hid =>
    (KeepsDrawn.connect 0 hid).bind fun _ _ => .pure hid

/-- An ordinary operator above several others, one for each operand. -/
theorem keepsDrawn_combine {inputs : List OperatorId} (op : Operator Plan)
    (hop : op.isOrdinary = true) : KeepsDrawn (· ≠ Graph.root) (combine op inputs) :=
  (KeepsDrawn.add op (Operator.ordinary_of_isOrdinary hop)).bind fun _ hid =>
    (KeepsDrawn.forM fun _ _ => .connect _ hid).bind fun _ _ => .pure hid

/-- An operator over what a drawing ends with. -/
theorem keepsDrawn_on {draw : Draw OperatorId} (op : Operator Plan) (hop : op.isOrdinary = true)
    (hdraw : KeepsDrawn (fun _ => True) draw) :
    KeepsDrawn (fun _ => True) (do above (← draw) op) :=
  hdraw.bind fun _ _ => (keepsDrawn_above op hop).mono fun _ _ => trivial

/-- Duplicates are only removed if the planner is asked to do so, by an ordinary operator. -/
theorem keepsDrawn_distinct {input : OperatorId} :
    KeepsDrawn (fun _ => True) (pp.distinct input) := by
  unfold distinct
  exact .ite ((keepsDrawn_above _ rfl).mono fun _ _ => trivial) (.pure trivial)

theorem keepsDrawn_project {input : OperatorId} (s o : Item) :
    KeepsDrawn (fun _ => True) (pp.project input s o) :=
  (keepsDrawn_above _ rfl).mono fun _ _ => trivial

theorem keepsDrawn_union {inputs : List OperatorId} :
    KeepsDrawn (fun _ => True) (combine .union inputs) :=
  (keepsDrawn_combine _ rfl).mono fun _ _ => trivial

/-- The nodes of a graph are drawn by a scan with two interim variables. -/
theorem keepsDrawn_nodes (v : Variable) (asSubject : Bool) :
    KeepsDrawn (fun _ => True) (pp.nodes v asSubject) :=
  KeepsDrawn.freshVar.bind fun _ _ => KeepsDrawn.freshVar.bind fun _ _ =>
    (keepsDrawn_scan _).bind fun _ _ => keepsDrawn_project _ _

theorem keepsDrawn_zeroLength : PathKeepsDrawn pp.zeroLength := by
  rintro (s | s) (o | o)
  · refine (keepsDrawn_nodes s true).bind fun _ _ => (keepsDrawn_nodes s false).bind fun _ _ => ?_
    refine keepsDrawn_union.bind fun _ _ => keepsDrawn_distinct.bind fun _ _ => ?_
    exact .ite (.pure trivial) ((keepsDrawn_above _ rfl).mono fun _ _ => trivial)
  · exact keepsDrawn_on _ rfl keepsDrawn_probe
  · exact keepsDrawn_on _ rfl keepsDrawn_probe
  · exact keepsDrawn_on _ rfl keepsDrawn_probe

/-- The part of a negated set in one direction: all triples without those of the excluded
predicates. -/
theorem keepsDrawn_negatedPart (excluded : List Term) :
    PathKeepsDrawn (pp.negatedPart excluded) := by
  intro s o
  unfold negatedPart
  refine KeepsDrawn.freshVar.bind fun any _ => (keepsDrawn_scan _).bind fun base _ => ?_
  have hrest (removed : OperatorId) : KeepsDrawn (fun _ => True) (do
      let minus ← combine .minus [base, removed]
      pp.project minus s o) :=
    (keepsDrawn_combine .minus rfl).bind fun _ _ => keepsDrawn_project s o
  refine .ite (keepsDrawn_project s o) ((KeepsDrawn.mapM fun iri _ =>
    keepsDrawn_on (.bind any (.constant iri)) rfl (keepsDrawn_scan _)).bind fun removed _ => ?_)
  dsimp only
  split
  · next single _ =>
    have hsingle : KeepsDrawn (fun _ => True) (pure single : Draw OperatorId) := .pure trivial
    exact hsingle.bind fun _ _ => hrest _
  · exact keepsDrawn_union.bind fun _ _ => hrest _

/-- A negated set is drawn by its parts, one for each direction that it mentions. -/
theorem keepsDrawn_negatedSet (members : List Excluded) :
    PathKeepsDrawn (pp.negatedSet members) := by
  intro s o
  unfold negatedSet
  dsimp only
  split
  · exact (keepsDrawn_negatedPart _ s o).bind fun _ _ => keepsDrawn_distinct
  · split
    · exact (keepsDrawn_negatedPart _ o s).bind fun _ _ => keepsDrawn_distinct
    · refine (keepsDrawn_negatedPart _ s o).bind fun _ _ => ?_
      refine (keepsDrawn_negatedPart _ o s).bind fun _ _ => ?_
      exact keepsDrawn_union.bind fun _ _ => keepsDrawn_distinct

/-- Copies of a path feed a join one after the other. -/
theorem keepsDrawn_copies (hpath : PathKeepsDrawn path) {join : OperatorId}
    (hjoin : join ≠ Graph.root) (first n : Nat) (start : Item) :
    KeepsDrawn (fun _ => True) (copies path join first n start) := by
  induction n generalizing first start with
  | zero => exact .pure trivial
  | succ n ih =>
      unfold copies
      refine KeepsDrawn.freshVar.bind fun next _ => (hpath _ _).bind fun _ _ => ?_
      exact (KeepsDrawn.connect first hjoin).bind fun _ _ => ih _ _

/-- Copies of a path in a row, the last of which is drawn by another path. -/
theorem keepsDrawn_row {last : DrawPath} {finish : OperatorId → Draw OperatorId}
    (hpath : PathKeepsDrawn path) (hlast : PathKeepsDrawn last)
    (hfinish : ∀ id, KeepsDrawn (fun _ => True) (finish id)) (n : Nat) (s o : Item) :
    KeepsDrawn (fun _ => True) (do
      let join ← Draw.add .join
      let item ← copies path join 0 n s
      Draw.connect (← last item o) join n
      finish join) :=
  (KeepsDrawn.add .join (Operator.ordinary_of_isOrdinary rfl)).bind fun join hjoin =>
    (keepsDrawn_copies hpath hjoin 0 n s).bind fun item _ => (hlast item o).bind fun _ _ =>
      (KeepsDrawn.connect n hjoin).bind fun _ _ => hfinish join

/-- A chain is a row of copies of one path. -/
theorem keepsDrawn_chain (hpath : PathKeepsDrawn path) (count : Nat) :
    PathKeepsDrawn (pp.chain path count) := by
  intro s o
  unfold chain
  exact .ite (hpath s o) (keepsDrawn_row hpath hpath (fun _ => keepsDrawn_project s o) _ s o)

/-- A loop feeds a union back, which is not the root. -/
theorem keepsDrawn_loop (hpath : PathKeepsDrawn path) (s o : Variable) :
    KeepsDrawn (fun _ => True) (pp.loop path s o) := by
  unfold loop
  refine (hpath _ _).bind fun base _ => (keepsDrawn_combine .union rfl).bind fun union hunion => ?_
  refine (keepsDrawn_above .distinct rfl).bind fun known _ => ?_
  refine KeepsDrawn.freshVar.bind fun step _ => ?_
  refine (keepsDrawn_above _ rfl).bind fun renamed _ => ?_
  refine (keepsDrawn_above _ rfl).bind fun unequal _ => ?_
  refine (keepsDrawn_above .join rfl).bind fun join hjoin => (hpath _ _).bind fun copy _ => ?_
  refine (KeepsDrawn.connect 1 hjoin).bind fun _ _ => (keepsDrawn_project _ _).bind fun back _ => ?_
  exact (KeepsDrawn.link 1 true hunion).bind fun _ _ => .pure trivial

/-- A closure is a loop between two variables, which is restricted where the items are others. -/
theorem keepsDrawn_closure (hpath : PathKeepsDrawn path) (rounds : Nat) :
    PathKeepsDrawn (pp.closure path rounds) := by
  induction rounds with
  | zero =>
      intro s o
      unfold closure
      have hitem (i : Item) :
          KeepsDrawn (fun _ => True) ((i.var?.map Pure.pure).getD Draw.freshVar) := by
        cases i with
        | var v => exact .pure trivial
        | term t => exact .freshVar
      exact (hitem s).bind fun _ _ => (hitem o).bind fun _ _ => keepsDrawn_loop hpath _ _
  | succ rounds ih =>
      intro s o
      have hcore (s' o' : Variable) (equalities : List (Item × Item)) :
          KeepsDrawn (fun _ => True) (do
            let core ← pp.closure path rounds (.var s') (.var o')
            pp.project (← above core (.ruleFilter equalities)) s o) :=
        (ih _ _).bind fun _ _ => (keepsDrawn_above _ rfl).bind fun _ _ => keepsDrawn_project s o
      have hfresh {f : Variable → Draw OperatorId} (hf : ∀ v, KeepsDrawn (fun _ => True) (f v)) :
          KeepsDrawn (fun _ => True) (do f (← Draw.freshVar)) :=
        KeepsDrawn.freshVar.bind fun v _ => hf v
      unfold closure
      cases s with
      | var v =>
          cases o with
          | var w =>
              dsimp only
              simp only [pure_bind]
              split
              · split
                · exact hfresh fun o' => hcore v o' _
                · exact hcore v w _
              · exact keepsDrawn_loop hpath v w
          | term t =>
              dsimp only
              simp only [pure_bind]
              exact hfresh fun o' => hcore v o' _
      | term t =>
          cases o with
          | var w =>
              dsimp only
              simp only [pure_bind]
              refine hfresh fun s' => ?_
              split
              · exact hfresh fun o' => hcore s' o' _
              · exact hcore s' w _
          | term u => exact hfresh fun s' => hfresh fun o' => hcore s' o' _

/-- A path that may be empty is the union of the path and the nodes. -/
theorem keepsDrawn_withZero (hpath : PathKeepsDrawn path) : PathKeepsDrawn (pp.withZero path) :=
  fun s o => (keepsDrawn_zeroLength s o).bind fun _ _ => (hpath s o).bind fun _ _ =>
    keepsDrawn_union.bind fun _ _ => keepsDrawn_distinct

theorem keepsDrawn_positiveRange (hpath : PathKeepsDrawn path) (min max : Nat) :
    PathKeepsDrawn (pp.positiveRange path min max) := by
  intro s o
  unfold positiveRange
  refine (KeepsDrawn.mapM fun n _ => keepsDrawn_chain hpath n s o).bind fun outputs _ => ?_
  split
  · exact .pure trivial
  · exact keepsDrawn_union.bind fun _ _ => keepsDrawn_distinct

/-- A range that starts at zero has an empty path in it. -/
theorem keepsDrawn_bounded (hpath : PathKeepsDrawn path) (min max : Nat) :
    PathKeepsDrawn (pp.bounded path min max) := by
  intro s o
  unfold bounded
  exact .ite .malformed (.ite (keepsDrawn_zeroLength s o) (.ite
    (keepsDrawn_withZero (keepsDrawn_positiveRange hpath 1 max) s o)
    (keepsDrawn_positiveRange hpath min max s o)))

theorem keepsDrawn_unbounded (hpath : PathKeepsDrawn path) (min : Nat) :
    PathKeepsDrawn (pp.unbounded path min) := by
  intro s o
  have hclosure : PathKeepsDrawn (pp.oneOrMore path) := keepsDrawn_closure hpath 3
  unfold unbounded
  split
  · exact keepsDrawn_withZero hclosure s o
  · exact hclosure s o
  · exact keepsDrawn_row hpath hclosure (fun _ => (keepsDrawn_project s o).bind fun _ _ =>
      keepsDrawn_distinct) _ s o

end PathPlanner

/-- Every path is drawn with ordinary operators, by recursion on the path. -/
theorem Path.keepsDrawn (pp : PathPlanner) : (path : Path) → PathKeepsDrawn (path.draw pp)
  | .predicate _ => fun _ _ => PathPlanner.keepsDrawn_scan _
  | .inverse p => fun s o => p.keepsDrawn pp o s
  | .sequence p q => fun s o =>
      KeepsDrawn.freshVar.bind fun _ _ => (p.keepsDrawn pp _ _).bind fun _ _ =>
        (q.keepsDrawn pp _ _).bind fun _ _ => (PathPlanner.keepsDrawn_combine .join rfl).bind
          fun _ _ => PathPlanner.keepsDrawn_project s o
  | .alternative p q => fun s o =>
      (p.keepsDrawn pp s o).bind fun _ _ => (q.keepsDrawn pp s o).bind fun _ _ =>
        PathPlanner.keepsDrawn_union.bind fun _ _ => (PathPlanner.keepsDrawn_project s o).bind
          fun _ _ => PathPlanner.keepsDrawn_distinct
  | .negatedSet members => PathPlanner.keepsDrawn_negatedSet members
  | .repetition p min (some max) => PathPlanner.keepsDrawn_bounded (p.keepsDrawn pp) min max
  | .repetition p min none => PathPlanner.keepsDrawn_unbounded (p.keepsDrawn pp) min
  | .oneOrMore p => PathPlanner.keepsDrawn_closure (p.keepsDrawn pp) 3
  | .zeroOrMore p =>
      PathPlanner.keepsDrawn_withZero (PathPlanner.keepsDrawn_closure (p.keepsDrawn pp) 3)
  | .zeroOrOne p => PathPlanner.keepsDrawn_withZero (p.keepsDrawn pp)


/-! ## Patterns -/

/-- The drawing feeds any operator but the root, and keeps drafts drawn. -/
def FeedsDrawn (draw : DrawInto) : Prop :=
  ∀ c : Cursor, c.target ≠ Graph.root → KeepsDrawn (fun _ => True) (draw c)

namespace FeedsDrawn

variable {draw : DrawInto}

/-- A source is fed by the root, and nothing is drawn below it. -/
theorem attachSource (op : Operator Plan) (hop : op.isOrdinary = true) :
    FeedsDrawn fun c => c.attachSource op :=
  fun _ hc => .attachSource op (Operator.ordinary_of_isOrdinary hop) hc

/-- What is attached below an ordinary operator keeps drafts drawn if it does so on its own. -/
theorem attach (op : Operator Plan) (hop : op.isOrdinary = true) (hdraw : FeedsDrawn draw) :
    FeedsDrawn (fun c => do draw (← c.attach op)) :=
  fun _ hc => (KeepsDrawn.attach op (Operator.ordinary_of_isOrdinary hop) hc).bind hdraw

/-- What a drawing ends with may feed the cursor. -/
theorem feed {draw : Draw OperatorId} (hdraw : KeepsDrawn (fun _ => True) draw) :
    FeedsDrawn (fun c => do c.feed (← draw)) :=
  fun _ hc => hdraw.bind fun _ _ => .feed hc

/-- A check may be made before something is attached. -/
theorem after {α : Type} {check : Draw α} (hcheck : KeepsDrawn (fun _ => True) check)
    (hdraw : FeedsDrawn draw) : FeedsDrawn (fun c => do let _ ← check; draw c) :=
  fun c hc => hcheck.bind fun _ _ => hdraw c hc

/-- Two drawings below one operator, each on an operand of its own. -/
theorem both (op : Operator Plan) (hop : op.isOrdinary = true) {first second : DrawInto}
    (hfirst : FeedsDrawn first) (hsecond : FeedsDrawn second) :
    FeedsDrawn (fun c => do
      let node ← c.attach op
      first node
      second (node.sibling 1)) :=
  .attach op hop fun c hc => (hfirst c hc).bind fun _ _ => hsecond (c.sibling 1) hc

/-- Any number of drawings below one operator. -/
theorem operands {draws : List DrawInto} (hdraws : ∀ draw ∈ draws, FeedsDrawn draw) :
    FeedsDrawn fun c => draws.zipIdx.forM fun (draw, operand) => draw (c.sibling operand) :=
  fun c hc => .forM fun e he => hdraws e.1 (List.fst_mem_of_mem_zipIdx he) (c.sibling e.2) hc

end FeedsDrawn

/-- A plan of its own is plain and leaves the draft around it alone. -/
theorem keepsDrawn_nestedPlan {vars : VarSet} {body : DrawInto} (hbody : FeedsDrawn body) :
    KeepsDrawn Plan.Plain (nestedPlan vars body) := by
  intro d hd plan d' hrun
  rw [nestedPlan_runOn] at hrun
  split at hrun
  · next inner hdrawn =>
    obtain ⟨hplan, rfl⟩ := Prod.mk.inj hrun
    have hdrawing : KeepsDrawn (fun _ => True) (do
        let result ← Draw.add (.result (.select vars.toList))
        body ⟨result, 0⟩ : Draw Unit) :=
      (KeepsDrawn.add _ (Operator.ordinary_of_isOrdinary rfl)).bind fun id hid => hbody ⟨id, 0⟩ hid
    obtain ⟨hinner, -⟩ := hdrawing _ Graph.drawn_empty () inner hdrawn
    cases hfinish : Graph.updateVariables.runOn inner.graph with
    | mk outcome G =>
        rw [hfinish] at hplan
        cases outcome with
        | error e => cases hplan
        | ok u =>
            obtain rfl := Except.ok.inj hplan
            exact ⟨hd, hinner.plain hfinish⟩
  · cases hrun

/-- A filter is ordinary if the plans of its conditions are plain. -/
theorem ordinary_filterOver {e : Expression} {plans : List Plan} {slot : Option FilterSlot}
    (hplans : ∀ plan ∈ plans, plan.Plain) : (filterOver e plans slot).Ordinary := by
  refine ⟨show Kind.filter ∉ Graph.ruleKinds by decide, fun entry hentry => ?_⟩
  obtain ⟨place, hplace, rfl⟩ := List.mem_map.1 hentry
  exact hplans place.1 (List.fst_mem_of_mem_zipIdx hplace)

/-- All the plans for some conditions are plain. -/
def PlansDrawn (nested : List (Draw Plan)) : Prop := ∀ draw ∈ nested, KeepsDrawn Plan.Plain draw

/-- A filter is attached once the plans for its condition have been drawn. -/
theorem keepsDrawn_attachFilter {p : Planner} {e : Expression} {nested : List (Draw Plan)}
    {c : Cursor} (hnested : PlansDrawn nested) (hc : c.target ≠ Graph.root) :
    KeepsDrawn (fun c' => c'.target ≠ Graph.root) (p.attachFilter e nested c) := by
  intro d hd c' d' hrun
  obtain ⟨plans, d₁, hplans, hattach⟩ := attachFilter_eq_ok hrun
  obtain ⟨hd₁, hplain⟩ := KeepsDrawn.mapM (f := id) hnested d hd plans d₁ hplans
  exact KeepsDrawn.attach _ (ordinary_filterOver hplain) hc
    { d₁ with nextSlot := d₁.nextSlot + 1 } hd₁ c' d' hattach

namespace Planner

variable {p : Planner}

/-- A grouping key is a variable, or an expression that is given one. -/
theorem keepsDrawn_groupKey (key : GroupKey) : KeepsDrawn (fun _ => True) key.draw := by
  unfold GroupKey.draw
  split
  · exact .pure trivial
  · exact .pure trivial
  · exact KeepsDrawn.freshVar.bind fun _ _ => .pure trivial

/-- Grouping may be refused, but nothing is drawn for it. -/
theorem keepsDrawn_checkGrouping {o : Outputs} {selectsAll : Bool}
    {keys aggregates : List Variable} :
    KeepsDrawn (fun _ => True) (checkGrouping o selectsAll keys aggregates) := by
  unfold checkGrouping
  refine .optionally .malformed ?_
  split
  · exact .stopped
  · refine .forM fun b _ => ?_
    split
    · exact .malformed
    · exact .pure trivial

theorem keepsDrawn_liftExcept {α : Type} {outcome : Except Error α} :
    KeepsDrawn (fun _ => True) (solutions.liftExcept outcome) := by
  intro d hd a d' hrun
  obtain ⟨-, rfl⟩ := Prod.mk.inj (hrun : (outcome, d) = (.ok a, d'))
  exact ⟨hd, trivial⟩

/-- Conditions are attached one below the other. -/
theorem keepsDrawn_attachFilters {conditions : List Expression} {nested : List (List (Draw Plan))}
    {c : Cursor} (hnested : ∀ draws ∈ nested, PlansDrawn draws) (hc : c.target ≠ Graph.root) :
    KeepsDrawn (fun c' => c'.target ≠ Graph.root) ((conditions.zip nested).foldlM
      (fun c (condition, plans) => p.attachFilter condition plans c) c) :=
  .foldlM hc fun _ hc e he =>
    keepsDrawn_attachFilter (hnested e.2 (List.of_mem_zip he).2) hc

section Stacked

variable {P : Operator Plan → Prop}

/-- Bindings that become operators one by one. -/
theorem forall_bindOperators (h : ∀ target e, P (.bind target e)) (bindings : List Binding) :
    ∀ op ∈ bindOperators bindings, P op := by
  intro op hop
  obtain ⟨b, -, rfl⟩ := List.mem_map.1 hop
  exact h _ _

theorem forall_option {α : Type} {x : Option α} {f : α → Operator Plan} (h : ∀ a, P (f a)) :
    ∀ op ∈ (x.map f).toList, P op := by
  intro op hop
  obtain ⟨a, -, rfl⟩ := Option.map_eq_some_iff.1 (Option.mem_toList.1 hop)
  exact h a

theorem forall_ite {c : Prop} [Decidable c] {ops ops' : List (Operator Plan)}
    (h : ∀ op ∈ ops, P op) (h' : ∀ op ∈ ops', P op) : ∀ op ∈ if c then ops else ops', P op := by
  split
  · exact h
  · exact h'

end Stacked

/-- The solutions of a query are drawn as the layers of its modifiers above its pattern. -/
theorem feedsDrawn_solutions {form : QueryForm} {m : Modifiers} {nested : List (List (Draw Plan))}
    {pattern : DrawInto} (hnested : ∀ draws ∈ nested, PlansDrawn draws)
    (hpattern : FeedsDrawn pattern) : FeedsDrawn (p.solutions form m nested pattern) := by
  have hnil : ∀ op ∈ ([] : List (Operator Plan)), op.Ordinary :=
    fun _ h => absurd h List.not_mem_nil
  have hop {op : Operator Plan} (h : op.isOrdinary = true) : op.Ordinary :=
    Operator.ordinary_of_isOrdinary h
  have hone {op : Operator Plan} (h : op.isOrdinary = true) : ∀ x ∈ [op], x.Ordinary :=
    fun x hx => List.mem_singleton.1 hx ▸ hop h
  intro c hc d hd
  unfold solutions
  refine Edit.ends_bind.2 (Edit.ends_get.2 ?_)
  dsimp only
  split
  next o extraction _ =>
  refine Edit.ends_bind.2 (Edit.ends_set.2 ?_)
  refine (KeepsDrawn.mapM fun key _ => keepsDrawn_groupKey key).bind (fun grouped _ => ?_)
    { d with nextVar := extraction.nextVar } hd
  refine .optionally keepsDrawn_checkGrouping ?_
  refine keepsDrawn_liftExcept.bind fun computed _ => keepsDrawn_liftExcept.bind fun keys _ => ?_
  refine (KeepsDrawn.attachAll ?_ hc).bind fun c₁ hc₁ => ?_
  · simp only [List.forall_mem_append]
    exact ⟨⟨⟨⟨⟨forall_option fun _ => hop rfl, forall_option fun _ => hop rfl⟩,
      forall_ite hnil (hone rfl)⟩, forall_option fun _ => hop rfl⟩,
      forall_ite hnil (hone rfl)⟩, forall_bindOperators (fun _ _ => hop rfl) _⟩
  · refine (keepsDrawn_attachFilters hnested hc₁).bind fun c₂ hc₂ => ?_
    refine (KeepsDrawn.attachAll ?_ hc₂).bind fun c₃ hc₃ => hpattern c₃ hc₃
    simp only [List.forall_mem_append]
    exact ⟨forall_ite (hone rfl) hnil, forall_bindOperators (fun _ _ => hop rfl) _⟩

end Planner

/-- All that a segment has gathered keeps drafts drawn. -/
abbrev Segment.Drawn (s : Segment) : Prop := s.Each FeedsDrawn

namespace Segment.Drawn

variable {s : Segment}

/-- A path is drawn by scans if it is one predicate, and by operators of its own otherwise. -/
theorem addPath {p : Planner} (h : s.Drawn) (hrules : p.inRules = false) (graph : Option Item)
    (path : PathPattern) : (s.addPath p graph path).Drawn := by
  unfold Segment.addPath
  split
  · dsimp only
    rw [if_neg (by simp [hrules])]
    exact h.addTriple _
  · exact h.addOther (.feed (path.path.keepsDrawn _ _ _))

/-- A segment draws what it has gathered, joined if it is more than one thing. -/
theorem feedsDrawn (h : s.Drawn) (p : Planner) (graph : Option Item) :
    FeedsDrawn (s.draw p graph) :=
  h.good_draw (.attachSource (.probe graph) rfl) (fun _ => .attachSource (p.scan _ graph) rfl)
    fun _ hdraws => .attach .join rfl (.operands hdraws)

end Segment.Drawn

theorem keepsDrawn_requireNestable (q : Query) :
    KeepsDrawn (fun _ => True) q.requireNestable := by
  unfold Query.requireNestable
  dsimp only
  split
  · exact .ite .malformed (.pure trivial)
  · exact .stopped

mutual

/-- A group is drawn with ordinary operators only. -/
theorem Group.feedsDrawn : (g : Group) → {p : Planner} → p.inRules = false →
    (graph : Option Item) → FeedsDrawn (g.draw p graph)
  | ⟨elements⟩, p, hrules, graph => fun c hc => by
      unfold Group.draw
      exact (keepsDrawn_drawFilters elements hrules graph hc).bind fun c₁ hc₁ =>
        (drawElements_drawn elements hrules graph .start).feedsDrawn p graph c₁ hc₁

/-- The filters of a group, each with the plans for its condition. -/
theorem keepsDrawn_drawFilters : (elements : List Element) → {p : Planner} → p.inRules = false →
    (graph : Option Item) → {c : Cursor} → c.target ≠ Graph.root →
      KeepsDrawn (fun c' => c'.target ≠ Graph.root) (drawFilters p graph elements c)
  | [], _, _, _, _, hc => .pure hc
  | e :: rest, p, hrules, graph, c, hc => by
      cases e with
      | filter e =>
          unfold drawFilters
          exact (keepsDrawn_attachFilter (e.drawNested_drawn p graph) hc).bind fun c₁ hc₁ =>
            keepsDrawn_drawFilters rest hrules graph hc₁
      | _ => exact keepsDrawn_drawFilters rest hrules graph hc

/-- The elements of a group are gathered in segments. -/
theorem drawElements_drawn : (elements : List Element) → {p : Planner} → p.inRules = false →
    (graph : Option Item) → {s : Segment} → s.Drawn → (drawElements p graph elements s).Drawn
  | [], _, _, _, _, hs => hs
  | e :: rest, _, hrules, graph, _, hs =>
      drawElements_drawn rest hrules graph ((e.draw_drawn hrules graph hs).scope _)

/-- One element adds to a segment, or closes it. -/
theorem Element.draw_drawn : (e : Element) → {p : Planner} → p.inRules = false →
    (graph : Option Item) → {s : Segment} → s.Drawn → (e.draw p graph s).Drawn
  | .triple t, p, hrules, graph, s, hs => by
      unfold Element.draw
      rw [if_neg (by simp [hrules])]
      exact hs.addTriple t
  | .path path, p, hrules, graph, _, hs => hs.addPath hrules graph path
  | .group g, _, hrules, graph, _, hs => hs.addOther (g.feedsDrawn hrules graph)
  | .union branches, p, hrules, graph, _, hs => by
      have hbranches := drawBranches_drawn branches hrules graph
      exact hs.addOther (DrawInto.good_several hbranches (.attachSource (.probe graph) rfl)
        (.attach .union rfl (.operands hbranches)))
  | .optional g, p, hrules, graph, _, hs =>
      .close (.both .optional rfl (hs.feedsDrawn p graph) (g.feedsDrawn hrules graph))
  | .minus g, p, hrules, graph, _, hs =>
      .close (.both .minus rfl (hs.feedsDrawn p graph) (g.feedsDrawn hrules graph))
  | .bind e target, p, _, graph, _, hs => .close fun c hc =>
      .optionally .malformed (.optionally .unsupported
        (FeedsDrawn.attach (.bind target e) rfl (hs.feedsDrawn p graph) c hc))
  | .graph name g, _, hrules, _, _, hs =>
      hs.addOther (.after .require (g.feedsDrawn hrules (some name)))
  | .filter _, _, _, _, _, hs => hs
  | .subSelect q, _, hrules, graph, _, hs =>
      hs.addOther (.after (keepsDrawn_requireNestable q) (q.feedsDrawn hrules graph))
  | .service endpoint g silent, _, _, _, _, hs =>
      hs.addOther (.after .require (.attachSource (.service endpoint g silent) rfl))
  | .window w g, _, hrules, graph, _, hs =>
      hs.addOther (.after .require (.attach (.window w) rfl (g.feedsDrawn hrules graph)))
  | .atom a, _, hrules, _, _, hs => by
      refine hs.addOther fun c hc => ?_
      rw [if_neg (by simp [hrules])]
      exact .malformed

/-- Alternatives are drawn like groups. -/
theorem drawBranches_drawn : (branches : List Group) → {p : Planner} → p.inRules = false →
    (graph : Option Item) → ∀ draw ∈ drawBranches p graph branches, FeedsDrawn draw
  | [], _, _, _, _, h => absurd h List.not_mem_nil
  | g :: rest, _, hrules, graph, draw, h => by
      rcases List.mem_cons.1 h with rfl | h
      · exact g.feedsDrawn hrules graph
      · exact drawBranches_drawn rest hrules graph draw h

/-- The solutions of a query are drawn with ordinary operators only. -/
theorem Query.feedsDrawn : (q : Query) → {p : Planner} → p.inRules = false →
    (graph : Option Item) → FeedsDrawn (q.drawSolutions p graph)
  | ⟨_, _, some g, ⟨_, having, _, _, _⟩⟩, p, hrules, graph =>
      Planner.feedsDrawn_solutions (drawNestedOf_drawn having p graph) (g.feedsDrawn hrules graph)
  | ⟨_, _, none, ⟨_, having, _, _, _⟩⟩, p, _, graph =>
      Planner.feedsDrawn_solutions (drawNestedOf_drawn having p graph)
        (.attachSource (.probe graph) rfl)

/-- The plans for existence patterns are plain, whether rules are planned or not. -/
theorem Expression.drawNested_drawn : (e : Expression) → (p : Planner) → (graph : Option Item) →
    PlansDrawn (e.drawNested p graph)
  | .existence _ g, _, graph => fun draw hdraw =>
      List.mem_singleton.1 hdraw ▸ keepsDrawn_nestedPlan (g.feedsDrawn rfl graph)
  | .binary l _ r, p, graph => fun draw hdraw => by
      rcases List.mem_append.1 hdraw with hdraw | hdraw
      · exact l.drawNested_drawn p graph draw hdraw
      · exact r.drawNested_drawn p graph draw hdraw
  | .unary _ e, p, graph => e.drawNested_drawn p graph
  | .call _ args, p, graph => fun draw hdraw => by
      obtain ⟨draws, hdraws, hdraw⟩ := List.mem_flatten.1 hdraw
      exact drawNestedOf_drawn args p graph draws hdraws draw hdraw
  | .constant _, _, _ | .variable _, _, _ | .bound _, _, _ | .aggregate _, _, _ =>
      fun _ h => absurd h List.not_mem_nil

/-- The plans for conditions are drawn like queries of their own. -/
theorem drawNestedOf_drawn : (es : List Expression) → (p : Planner) → (graph : Option Item) →
    ∀ draws ∈ drawNestedOf p graph es, PlansDrawn draws
  | [], _, _, _, h => absurd h List.not_mem_nil
  | e :: rest, p, graph, draws, h => by
      rcases List.mem_cons.1 h with rfl | h
      · exact e.drawNested_drawn p graph
      · exact drawNestedOf_drawn rest p graph draws h

end

/-! ## Documents -/

section Documents

variable {d d' : Draft} {p : Planner} {prepared : Prepared}

/-- A plan that is drawn from an empty graph is plain. -/
theorem plain_of_prepared {dataset : Dataset} {build : Draw Unit}
    (hbuild : KeepsDrawn (fun _ => True) build)
    (h : (Draw.prepared dataset build).runOn d = (.ok prepared, d')) : prepared.plan.Plain := by
  obtain ⟨d₁, G, hbuilt, hfinish, rfl⟩ := prepared_eq_ok h
  exact (hbuild _ Graph.drawn_empty () d₁ hbuilt).1.plain hfinish

theorem keepsDrawn_addResult (form : ResultForm) :
    KeepsDrawn (fun c => c.target ≠ Graph.root) (Draw.addResult form) :=
  (KeepsDrawn.add _ (Operator.ordinary_of_isOrdinary rfl)).bind fun _ hid => .pure hid

/-- A result under one operator over solutions. -/
theorem keepsDrawn_over {form : ResultForm} (op : Operator Plan) (hop : op.isOrdinary = true)
    {draw : DrawInto} (hdraw : FeedsDrawn draw) : KeepsDrawn (fun _ => True) (do
      let result ← Draw.addResult form
      draw (← result.attach op)) :=
  (keepsDrawn_addResult form).bind fun c hc => FeedsDrawn.attach op hop hdraw c hc

/-- A query without a pattern is drawn as a probe. -/
theorem feedsDrawn_drawPattern (hrules : p.inRules = false) (graph : Option Item)
    (pattern : Option Group) : FeedsDrawn (drawPattern p graph pattern) := by
  cases pattern with
  | some g => exact g.feedsDrawn hrules graph
  | none => exact .attachSource (.probe graph) rfl

/-- Every form of a query is drawn with ordinary operators only. -/
theorem Query.keepsDrawn (q : Query) (hrules : p.inRules = false) :
    KeepsDrawn (fun _ => True) (q.draw p) := by
  unfold Query.draw
  split
  · exact (keepsDrawn_addResult _).bind fun c hc => q.feedsDrawn hrules none c hc
  · exact keepsDrawn_over _ rfl (q.feedsDrawn hrules none)
  · exact keepsDrawn_over _ rfl (feedsDrawn_drawPattern hrules none q.pattern)
  · exact keepsDrawn_over _ rfl (q.feedsDrawn hrules none)

/-- A choice of graphs changes nothing else. -/
theorem Planner.ends_within (clause : Option DatasetClause) :
    (p.within clause).Ends d fun p' _ => p' = { p with dataset := p'.dataset } := by
  unfold Planner.within
  split
  · exact Edit.ends_pure.2 rfl
  · exact ends_optionally ends_require fun _ _ => Edit.ends_pure.2 rfl

/-- Queries are planned to plain plans. -/
theorem Query.prepare_plain (q : Query) (hrules : p.inRules = false)
    (h : (q.prepare p).runOn d = (.ok prepared, d')) : prepared.plan.Plain := by
  obtain ⟨p', d₁, hwithin, h⟩ := Edit.runOn_bind_eq_ok.1 h
  exact plain_of_prepared
    (q.keepsDrawn
      ((congrArg Planner.inRules (Planner.ends_within _ p' d₁ hwithin)).trans hrules)) h

/-- The inputs of one operator are shared with others, none of which is the root. -/
theorem keepsDrawn_shareInputs {first : Cursor} {others : List Cursor}
    (hothers : ∀ c ∈ others, c.target ≠ Graph.root) :
    KeepsDrawn (fun _ => True) (Draw.shareInputs first others) := fun d hd => by
  unfold Draw.shareInputs
  refine Edit.ends_bind.2 (Edit.ends_get.2 ?_)
  exact KeepsDrawn.forM (fun c hc => .forM fun producer _ => .feed (hothers c hc)) d hd

/-- A change is attached with its template. -/
theorem keepsDrawn_attachChange {c : Cursor} (change : Operator Plan)
    (hchange : change.isOrdinary = true) (template : List QuadPattern)
    (hc : c.target ≠ Graph.root) :
    KeepsDrawn (fun c' => c'.target ≠ Graph.root) (Planner.attachChange c change template) :=
  (KeepsDrawn.attach change (Operator.ordinary_of_isOrdinary hchange) hc).bind fun _ hc' =>
    .attach (.construct template) (Operator.ordinary_of_isOrdinary rfl) hc'

theorem keepsDrawn_checkData (inserting : Bool) (quads : List QuadPattern) :
    KeepsDrawn (fun _ => True) (checkData inserting quads) :=
  .forM fun _ _ => .optionally .malformed (.ite .malformed (.pure trivial))

theorem keepsDrawn_checkDeletion (template : List QuadPattern) :
    KeepsDrawn (fun _ => True) (checkDeletion template) := by
  unfold checkDeletion
  split
  · exact .malformed
  · exact .pure trivial

theorem keepsDrawn_requireTemplates (template : List QuadPattern) :
    KeepsDrawn (fun _ => True) (p.requireTemplates template) := .ite .require (.pure trivial)

/-- Data is inserted and deleted without a pattern. -/
theorem keepsDrawn_drawData (inserting : Bool) (quads : List QuadPattern) :
    KeepsDrawn (fun _ => True) (drawData p inserting quads) := by
  unfold drawData
  refine (keepsDrawn_addResult _).bind fun result hresult => ?_
  refine (keepsDrawn_checkData inserting quads).bind fun _ _ => ?_
  refine (keepsDrawn_requireTemplates quads).bind fun _ _ => ?_
  refine (keepsDrawn_attachChange _ (by split <;> rfl) quads hresult).bind fun c hc => ?_
  exact FeedsDrawn.attachSource (.probe none) rfl c hc

/-- A change for a template, unless the template is empty, before something else is done. -/
theorem keepsDrawn_attachUnlessEmpty {c : Cursor} {change : Operator Plan}
    {template : List QuadPattern} {next : List Cursor → Draw Unit}
    (hchange : change.isOrdinary = true) (hc : c.target ≠ Graph.root)
    (hnext : ∀ cs : List Cursor, (∀ c' ∈ cs, c'.target ≠ Graph.root) →
      KeepsDrawn (fun _ => True) (next cs)) :
    KeepsDrawn (fun _ => True) (if template.isEmpty then do
        let cs ← pure []
        next cs
      else do
        let c' ← Planner.attachChange c change template
        let cs ← pure [c']
        next cs) :=
  .ite (hnext [] fun _ h => absurd h List.not_mem_nil)
    ((keepsDrawn_attachChange change hchange template hc).bind fun c' hc' =>
      hnext [c'] fun _ h => List.mem_singleton.1 h ▸ hc')

/-- A modification is drawn as the changes of its templates, which share the rows of one pattern. -/
theorem Modification.keepsDrawn (m : Modification) (hrules : p.inRules = false) :
    KeepsDrawn (fun _ => True) (m.draw p) := by
  unfold Modification.draw
  dsimp only
  refine (keepsDrawn_checkDeletion _).bind fun _ _ => .optionally .require ?_
  refine (keepsDrawn_addResult _).bind fun result hresult => ?_
  refine (keepsDrawn_requireTemplates _).bind fun _ _ => ?_
  refine (keepsDrawn_requireTemplates _).bind fun _ _ => ?_
  refine keepsDrawn_attachUnlessEmpty rfl hresult fun deleting hdeleting => ?_
  refine keepsDrawn_attachUnlessEmpty rfl hresult fun inserting hinserting => ?_
  have hboth : ∀ c ∈ deleting ++ inserting, c.target ≠ Graph.root := fun c hc =>
    (List.mem_append.1 hc).elim (hdeleting c) (hinserting c)
  split
  · exact .malformed
  · next first others heq =>
    rw [heq] at hboth
    refine (m.pattern.feedsDrawn hrules _ first (hboth first List.mem_cons_self)).bind fun _ _ => ?_
    exact keepsDrawn_shareInputs fun c hc => hboth c (List.mem_cons_of_mem _ hc)

/-- Every update is drawn with ordinary operators only. -/
theorem UpdateOperation.keepsDrawn (op : UpdateOperation) (hrules : p.inRules = false) :
    KeepsDrawn (fun _ => True) (op.draw p) := by
  unfold UpdateOperation.draw
  split
  · exact keepsDrawn_drawData true _
  · exact keepsDrawn_drawData false _
  · refine (keepsDrawn_addResult _).bind fun result hresult => ?_
    refine (keepsDrawn_checkDeletion _).bind fun _ _ => ?_
    refine (keepsDrawn_requireTemplates _).bind fun _ _ => ?_
    refine (keepsDrawn_attachChange .delete rfl _ hresult).bind fun c hc => ?_
    exact Group.feedsDrawn _ hrules none c hc
  · exact Modification.keepsDrawn _ hrules
  · next command =>
    refine (keepsDrawn_addResult _).bind fun result hresult => ?_
    have hcommand : KeepsDrawn (fun _ => True) (do
        (← result.attach (.command command)).attachSource (.probe none) : Draw Unit) :=
      FeedsDrawn.attach (.command command) (by cases command <;> rfl)
        (.attachSource (.probe none) rfl) result hresult
    dsimp only
    split
    · exact KeepsDrawn.require.bind fun _ _ => hcommand
    · exact hcommand

/-- Updates are planned to plain plans. -/
theorem UpdateOperation.prepare_plain (op : UpdateOperation) (hrules : p.inRules = false)
    (h : (op.prepare p).runOn d = (.ok prepared, d')) : prepared.plan.Plain := by
  obtain ⟨p', d₁, hwithin, h⟩ := Edit.runOn_bind_eq_ok.1 h
  exact plain_of_prepared
    (op.keepsDrawn
      ((congrArg Planner.inRules (Planner.ends_within _ p' d₁ hwithin)).trans hrules)) h

end Documents

end QuadAlgebra
