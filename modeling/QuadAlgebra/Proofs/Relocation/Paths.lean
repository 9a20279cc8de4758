import QuadAlgebra.Planning.Path
import QuadAlgebra.Proofs.Relocation.Steps

/-!
# Paths drawn elsewhere

Every path is planned alike in a plan of its own and inside a larger plan
(`Path.mirrors_draw`).
-/

namespace QuadAlgebra

open Site

variable {s : Site}

/-- A drawing that adds a producer, alike at both places. -/
abbrev Site.MirrorsProducer (s : Site) (x : Draw OperatorId) : Prop := s.Mirrors s.Drawn x x

/-- A path that is drawn alike at both places, whatever it leads between. -/
def Site.MirrorsPath (s : Site) (path : DrawPath) : Prop :=
  ∀ a b, s.MirrorsProducer (path a b)

namespace PathPlanner

variable {pp : PathPlanner} {path : DrawPath} {id id' : Nat}

/-! ## Single operators -/

/-- A scan is drawn alike. -/
theorem mirrors_scan (p : TriplePattern) : s.MirrorsProducer (pp.scan p) :=
  mirrors_addSource Kind.noConfusion

/-- A probe is drawn alike. -/
theorem mirrors_probe : s.MirrorsProducer pp.probe := mirrors_addSource Kind.noConfusion

/-- An operator over operators that correspond is drawn alike. -/
theorem mirrors_above {op : Operator Plan} (hop : op.kind ≠ .result) (hid : s.Drawn id id') :
    s.Mirrors s.Drawn (above id op) (above id' op) :=
  (mirrors_add hop).bind fun _ _ hnew =>
    (mirrors_connect hid.sourced hnew).bind fun _ _ _ => mirrors_pure hnew

/-- Numbering corresponding lists gives the same numbers. -/
theorem forall₂_zipIdx {α β : Type} {related : α → β → Prop} {l : List α} {l' : List β}
    (h : List.Forall₂ related l l') (k : Nat) :
    List.Forall₂ (fun a b => related a.1 b.1 ∧ a.2 = b.2) (l.zipIdx k) (l'.zipIdx k) := by
  induction h generalizing k with
  | nil => exact .nil
  | cons hab _ ih => exact .cons ⟨hab, rfl⟩ (ih (k + 1))

/-- An operator over several operators that correspond is drawn alike. -/
theorem mirrors_combine {op : Operator Plan} (hop : op.kind ≠ .result) {l l' : List OperatorId}
    (hl : List.Forall₂ s.Drawn l l') : s.Mirrors s.Drawn (combine op l) (combine op l') := by
  refine (mirrors_add hop).bind fun _ _ hnew => ?_
  refine (mirrors_forM (forall₂_zipIdx hl 0) fun (a, k) (b, k') hab => ?_).bind
    fun _ _ _ => mirrors_pure hnew
  obtain ⟨hid, rfl⟩ : s.Drawn a b ∧ k = k' := hab
  exact mirrors_connect hid.sourced hnew

/-- The same for two operators. -/
theorem mirrors_pair {op : Operator Plan} (hop : op.kind ≠ .result) {a a' b b' : Nat}
    (ha : s.Drawn a a') (hb : s.Drawn b b') :
    s.Mirrors s.Drawn (combine op [a, b]) (combine op [a', b']) :=
  mirrors_combine hop (.cons ha (.cons hb .nil))

/-- Deduplication is drawn alike. -/
theorem mirrors_distinct (hid : s.Drawn id id') :
    s.Mirrors s.Drawn (pp.distinct id) (pp.distinct id') :=
  mirrors_ite (fun _ => mirrors_above Kind.noConfusion hid) fun _ => mirrors_pure hid

/-- The projection onto the endpoints is drawn alike. -/
theorem mirrors_project (hid : s.Drawn id id') (a b : Item) :
    s.Mirrors s.Drawn (pp.project id a b) (pp.project id' a b) :=
  mirrors_above Kind.noConfusion hid

/-! ## Paths of length zero -/

/-- The nodes of the graph are drawn alike. -/
theorem mirrors_nodes (v : Variable) (asSubject : Bool) :
    s.MirrorsProducer (pp.nodes v asSubject) :=
  mirrorsSelf_freshVar.bind fun _ => mirrorsSelf_freshVar.bind fun _ =>
    (mirrors_scan _).bind fun _ _ h => mirrors_project h _ _

/-- An operator over a probe is drawn alike. -/
theorem mirrors_overProbe {op : Operator Plan} (hop : op.kind ≠ .result) :
    s.MirrorsProducer (do above (← pp.probe) op) :=
  mirrors_probe.bind fun _ _ h => mirrors_above hop h

/-- A path of length zero is drawn alike. -/
theorem mirrors_zeroLength : s.MirrorsPath pp.zeroLength := by
  intro a b
  unfold zeroLength
  split
  · refine (mirrors_nodes _ _).bind fun _ _ hsubjects => ?_
    refine (mirrors_nodes _ _).bind fun _ _ hobjects => ?_
    refine (mirrors_pair Kind.noConfusion hsubjects hobjects).bind fun _ _ hunion => ?_
    refine (mirrors_distinct hunion).bind fun _ _ hall => ?_
    exact mirrors_ite (fun _ => mirrors_pure hall) fun _ => mirrors_above Kind.noConfusion hall
  · exact mirrors_overProbe Kind.noConfusion
  · exact mirrors_overProbe Kind.noConfusion
  · exact mirrors_overProbe Kind.noConfusion

/-! ## Negated sets -/

/-- One direction of a negated set is drawn alike. -/
theorem mirrors_negatedPart (excluded : List Term) : s.MirrorsPath (pp.negatedPart excluded) := by
  intro a b
  unfold negatedPart
  refine mirrorsSelf_freshVar.bind fun any => (mirrors_scan _).bind fun base base' hbase => ?_
  have hrest {merged merged' : Nat} (h : s.Drawn merged merged') : s.Mirrors s.Drawn (do
        let minus ← combine .minus [base, merged]
        pp.project minus a b) (do
        let minus ← combine .minus [base', merged']
        pp.project minus a b) :=
    (mirrors_pair Kind.noConfusion hbase h).bind fun _ _ h => mirrors_project h a b
  split
  · exact mirrors_project hbase a b
  · have hremove (iri : Term) : s.MirrorsProducer (do
        above (← pp.scan ⟨a, .term iri, b⟩) (.bind any (.constant iri))) :=
      (mirrors_scan _).bind fun _ _ h => mirrors_above Kind.noConfusion h
    refine (mirrors_mapM fun iri _ => hremove iri).bind fun removed removed' hremoved => ?_
    cases hremoved with
    | nil => exact (mirrors_combine Kind.noConfusion .nil).bind fun _ _ h => hrest h
    | cons h hmore =>
        cases hmore with
        | nil => exact hrest h
        | cons h' hmore =>
            exact (mirrors_combine Kind.noConfusion (.cons h (.cons h' hmore))).bind
              fun _ _ h => hrest h

/-- A negated set is drawn alike, in one direction or in both. -/
theorem mirrors_negatedSet (members : List Excluded) : s.MirrorsPath (pp.negatedSet members) := by
  intro a b
  unfold negatedSet
  dsimp only
  split
  · exact (mirrors_negatedPart _ a b).bind fun _ _ h => mirrors_distinct h
  · split
    · exact (mirrors_negatedPart _ b a).bind fun _ _ h => mirrors_distinct h
    · refine (mirrors_negatedPart _ a b).bind fun _ _ hfirst => ?_
      refine (mirrors_negatedPart _ b a).bind fun _ _ hsecond => ?_
      exact (mirrors_pair Kind.noConfusion hfirst hsecond).bind fun _ _ h => mirrors_distinct h

/-! ## Repetition -/

/-- Copies under corresponding joins take the same fresh variables. -/
theorem mirrors_copies (hpath : s.MirrorsPath path) (hjoin : s.Drawn id id') (first n : Nat)
    (start : Item) :
    s.Mirrors (· = ·) (copies path id first n start) (copies path id' first n start) := by
  induction n generalizing first start with
  | zero => exact mirrors_pure rfl
  | succ n ih =>
      refine mirrorsSelf_freshVar.bind fun v => (hpath start (.var v)).bind fun _ _ h => ?_
      exact (mirrors_connect h.sourced hjoin).bind fun _ _ _ => ih (first + 1) (.var v)

/-- Copies in a row under a join, the last one drawn by another path. -/
theorem mirrors_row {last : DrawPath} {finish : OperatorId → Draw OperatorId}
    (hpath : s.MirrorsPath path) (hlast : s.MirrorsPath last)
    (hfinish : ∀ id id', s.Drawn id id' → s.Mirrors s.Drawn (finish id) (finish id')) (n : Nat)
    (a b : Item) : s.MirrorsProducer (do
      let join ← Draw.add .join
      let item ← copies path join 0 n a
      Draw.connect (← last item b) join n
      finish join) := by
  refine (mirrors_add Kind.noConfusion).bind fun join join' hjoin => ?_
  refine (mirrors_copies hpath hjoin 0 n a).bind fun item _ hitem => ?_
  subst hitem
  refine (hlast item b).bind fun _ _ h => ?_
  exact (mirrors_connect h.sourced hjoin).bind fun _ _ _ => hfinish _ _ hjoin

/-- A chain is drawn alike if its path is. -/
theorem mirrors_chain (hpath : s.MirrorsPath path) (count : Nat) :
    s.MirrorsPath (pp.chain path count) := fun a b =>
  mirrors_ite (fun _ => hpath a b) fun _ =>
    mirrors_row hpath hpath (fun _ _ h => mirrors_project h a b) (count - 1) a b

/-- A loop is drawn alike, its feedback edge included, if its path is. -/
theorem mirrors_loop (hpath : s.MirrorsPath path) (a b : Variable) :
    s.MirrorsProducer (pp.loop path a b) := by
  refine (hpath _ _).bind fun _ _ hbase => ?_
  refine (mirrors_combine Kind.noConfusion (.cons hbase .nil)).bind fun union union' hunion => ?_
  refine (mirrors_above Kind.noConfusion hunion).bind fun known known' hknown => ?_
  refine mirrorsSelf_freshVar.bind fun step => ?_
  refine (mirrors_above Kind.noConfusion hknown).bind fun _ _ hrenamed => ?_
  refine (mirrors_above Kind.noConfusion hrenamed).bind fun _ _ hunequal => ?_
  refine (mirrors_above Kind.noConfusion hunequal).bind fun join join' hjoin => ?_
  refine (hpath _ _).bind fun _ _ hcopy => ?_
  refine (mirrors_connect hcopy.sourced hjoin).bind fun _ _ _ => ?_
  refine (mirrors_above Kind.noConfusion hjoin).bind fun back back' hback => ?_
  refine (mirrors_onGraph_connect hback.sourced hunion.2 hunion.ne_zero
    fun h => absurd h hunion.ne_one).bind fun _ _ _ => mirrors_pure hknown

/-- A closure is drawn alike if its path is. -/
theorem mirrors_closure (hpath : s.MirrorsPath path) (rounds : Nat) :
    s.MirrorsPath (pp.closure path rounds) := by
  induction rounds with
  | zero =>
      intro a b
      have hvar (i : Item) : s.MirrorsSelf ((i.var?.map pure).getD Draw.freshVar) := by
        cases i.var? with
        | none => exact mirrorsSelf_freshVar
        | some v => exact mirrorsSelf_pure v
      exact (hvar a).bind fun _ => (hvar b).bind fun _ => mirrors_loop hpath _ _
  | succ rounds ih =>
      intro a b
      have hcore (s' o' : Variable) (equalities : List (Item × Item)) : s.MirrorsProducer (do
          let core ← pp.closure path rounds (.var s') (.var o')
          pp.project (← above core (.ruleFilter equalities)) a b) :=
        (ih _ _).bind fun _ _ hcore =>
          (mirrors_above Kind.noConfusion hcore).bind fun _ _ h => mirrors_project h a b
      have hfresh {f : Variable → Draw OperatorId} (hf : ∀ v, s.MirrorsProducer (f v)) :
          s.MirrorsProducer (do f (← Draw.freshVar)) :=
        mirrorsSelf_freshVar.bind hf
      unfold closure
      cases a with
      | var v =>
          cases b with
          | var w =>
              dsimp only
              simp only [pure_bind]
              split
              · split
                · exact hfresh fun o' => hcore v o' _
                · exact hcore v w _
              · exact mirrors_loop hpath v w
          | term t =>
              dsimp only
              simp only [pure_bind]
              exact hfresh fun o' => hcore v o' _
      | term t =>
          cases b with
          | var w =>
              dsimp only
              simp only [pure_bind]
              split
              · exact hfresh fun s' => hfresh fun o' => hcore s' o' _
              · exact hfresh fun s' => hcore s' w _
          | term u =>
              dsimp only
              exact hfresh fun s' => hfresh fun o' => hcore s' o' _

/-- One or more steps are drawn alike if one step is. -/
theorem mirrors_oneOrMore (hpath : s.MirrorsPath path) : s.MirrorsPath (pp.oneOrMore path) :=
  mirrors_closure hpath 3

/-- Adding no step at all is drawn alike. -/
theorem mirrors_withZero (hpath : s.MirrorsPath path) : s.MirrorsPath (pp.withZero path) :=
  fun a b => (mirrors_zeroLength a b).bind fun _ _ hnone => (hpath a b).bind fun _ _ hmore =>
    (mirrors_pair Kind.noConfusion hnone hmore).bind fun _ _ h => mirrors_distinct h

/-- A range of at least one step is drawn alike. -/
theorem mirrors_positiveRange (hpath : s.MirrorsPath path) (min max : Nat) :
    s.MirrorsPath (pp.positiveRange path min max) := by
  intro a b
  refine (mirrors_mapM fun n _ => mirrors_chain hpath n a b).bind fun outputs outputs' h => ?_
  have hmerged : s.Mirrors s.Drawn (do pp.distinct (← combine .union outputs))
      (do pp.distinct (← combine .union outputs')) :=
    (mirrors_combine Kind.noConfusion h).bind fun _ _ hunion => mirrors_distinct hunion
  cases h with
  | nil => exact hmerged
  | cons h hmore =>
      cases hmore with
      | nil => exact mirrors_pure h
      | cons h' hmore => exact hmerged

/-- A bounded number of steps is drawn alike. -/
theorem mirrors_bounded (hpath : s.MirrorsPath path) (min max : Nat) :
    s.MirrorsPath (pp.bounded path min max) := fun a b =>
  mirrors_ite (fun _ => mirrors_throw) fun _ =>
    mirrors_ite (fun _ => mirrors_zeroLength a b) fun _ =>
      mirrors_ite (fun _ => mirrors_withZero (mirrors_positiveRange hpath 1 max) a b) fun _ =>
        mirrors_positiveRange hpath min max a b

/-- An unbounded number of steps is drawn alike. -/
theorem mirrors_unbounded (hpath : s.MirrorsPath path) (min : Nat) :
    s.MirrorsPath (pp.unbounded path min) := by
  intro a b
  unfold unbounded
  split
  · exact mirrors_withZero (mirrors_oneOrMore hpath) a b
  · exact mirrors_oneOrMore hpath a b
  · exact mirrors_row hpath (mirrors_oneOrMore hpath) (fun _ _ h =>
      (mirrors_project h a b).bind fun _ _ h => mirrors_distinct h) _ a b

end PathPlanner

/-! ## All paths -/

open PathPlanner in
/-- Every path is drawn alike at both places, by induction on the path. -/
theorem Path.mirrors_draw (pp : PathPlanner) : (path : Path) → s.MirrorsPath (path.draw pp)
  | .predicate _ => fun _ _ => mirrors_scan _
  | .inverse p => fun a b => p.mirrors_draw pp b a
  | .sequence p q => fun a b =>
    mirrorsSelf_freshVar.bind fun _ => (p.mirrors_draw pp a _).bind fun _ _ hleft =>
      (q.mirrors_draw pp _ b).bind fun _ _ hright =>
        (mirrors_pair Kind.noConfusion hleft hright).bind fun _ _ h => mirrors_project h a b
  | .alternative p q => fun a b =>
    (p.mirrors_draw pp a b).bind fun _ _ hleft => (q.mirrors_draw pp a b).bind fun _ _ hright =>
      (mirrors_pair Kind.noConfusion hleft hright).bind fun _ _ hunion =>
        (mirrors_project hunion a b).bind fun _ _ h => mirrors_distinct h
  | .negatedSet members => mirrors_negatedSet members
  | .repetition p min (some max) => mirrors_bounded (p.mirrors_draw pp) min max
  | .repetition p min none => mirrors_unbounded (p.mirrors_draw pp) min
  | .oneOrMore p => mirrors_oneOrMore (p.mirrors_draw pp)
  | .zeroOrMore p => mirrors_withZero (mirrors_oneOrMore (p.mirrors_draw pp))
  | .zeroOrOne p => mirrors_withZero (p.mirrors_draw pp)

end QuadAlgebra
