import QuadAlgebra.Proofs.Agreement.Grades
import QuadAlgebra.Proofs.Variables.Patterns

/-!
# Threads of paths

Planning connects each operator that it draws to a single other one, and then draws nothing more
from it; only the loop of a closure reads the pairs that it knows once more, through a renaming. So
the graph is threaded, and it can be graded as soon as nothing in it cuts off or counts rows
(`Graph.Spun.graded`). While a plan is drawn, `Graph.Gathers` keeps the books: which operators have
been drawn of late and are still to be connected. Each step of the drawing of a path has one lemma,
and a path leaves a single operator to connect (`Path.drawsLoose`).
-/

namespace QuadAlgebra

open List (Perm)

/-! ## Spun graphs -/

namespace Graph

section Spun

variable {γ : Type}

/-- A threaded graph in which nothing cuts off or counts rows. Only the answer to a question is
found with the first of all solutions. -/
structure Spun (g : Graph γ) : Prop extends g.Threaded where
  root : g.operator? Graph.root = some .root
  unfed : ∀ i, ¬ g.Reads Graph.root i
  steadfast : ∀ x op, g.operator? x = some op → op.kind ≠ .limit → op.Steadfast
  limits : ∀ x, g.operator? x ≠ some (.limit 0)
  unread : ∀ x i op, g.Reads x i → g.operator? i.source = some op → op.kind ≠ .result
  asked : ∀ x i op, g.Reads x i → g.operator? i.source = some op → op.kind = .limit →
    g.operator? x = some (.result .ask)

open Classical in
/-- How precisely the rows of each operator of a drawn graph matter. -/
noncomputable def grade (g : Graph γ) (x : OperatorId) : Precision :=
  match g.operator? x with
  | some (.result form) => form.precision
  | some (.limit _) => .emptiness
  | some op => if g.OnLoop x ∧ op.kind ∉ Operator.deduplicating then .members else .bag
  | none => .bag

variable {g : Graph γ} {shapes : Shapes} {x : OperatorId} {op : Operator γ} {i : Input}

open Classical in
theorem grade_of_kind (hop : g.operator? x = some op) (hkind : op.kind ∉ [.result, .limit]) :
    g.grade x = if g.OnLoop x ∧ op.kind ∉ Operator.deduplicating then .members else .bag := by
  unfold grade
  rw [hop]
  cases op with
  | result | limit => simp [Operator.kind] at hkind
  | _ => rfl

/-- What is on a loop is read by an operator on a loop. -/
theorem exists_reader_onLoop (h : g.Linked) (hloop : g.OnLoop x) :
    ∃ y i, g.Reads y i ∧ i.source = x ∧ g.OnLoop y := by
  obtain ⟨y, hxy, hyx⟩ := Relation.TransGen.head'_iff.1 hloop
  obtain ⟨i, hi, hsource⟩ := (leads_iff h).1 hxy
  exact ⟨y, i, hi, hsource, .tail' hyx hxy⟩

namespace Spun

variable (h : g.Spun)

include h

/-- Results and limits are on no loop. -/
theorem kind_of_onLoop (hop : g.operator? x = some op) (hloop : g.OnLoop x) :
    op.kind ∉ [.result, .limit] := by
  obtain ⟨y, i, hi, rfl, hy⟩ := exists_reader_onLoop h.symmetric.linked hloop
  rw [List.mem_pair]
  rintro (hkind | hkind)
  · exact h.unread y i op hi hop hkind
  · obtain ⟨z, j, hj, rfl, -⟩ := exists_reader_onLoop h.symmetric.linked hy
    exact h.unread z j _ hj (h.asked _ i op hi hop hkind) rfl

/-- The root is on no loop. -/
theorem not_onLoop_root : ¬ g.OnLoop Graph.root := fun hloop => by
  obtain ⟨y, -, hlead⟩ := Relation.TransGen.tail'_iff.1 hloop
  obtain ⟨i, hi, -⟩ := (leads_iff h.symmetric.linked).1 hlead
  exact h.unfed i hi

/-- A loop is left over operators that remove duplicates. -/
theorem onLoop_of_reads (hregular : g.Regular false shapes) (hi : g.Reads x i)
    (hop : g.operator? i.source = some op) (hkind : op.kind ∉ Operator.deduplicating)
    (hloop : g.OnLoop i.source) : g.OnLoop x := by
  obtain ⟨y, j, hj, hsource, hy⟩ := exists_reader_onLoop h.symmetric.linked hloop
  have hplain (z : OperatorId) (k : Input) (hk : g.Reads z k) (hsource : k.source = i.source) :
      ¬ Renames g.operator? z := fun ⟨r, hr⟩ =>
    hkind (hregular.renamed z _ k op hr rfl hk (hsource ▸ hop))
  have hroot : i.source ≠ Graph.root := fun he => h.not_onLoop_root (he ▸ hloop)
  exact (h.threads.single x i y j hi hj hsource.symm hroot (hplain x i hi rfl)
    (hplain y j hj hsource)).1 ▸ hy

/-- A spun graph is graded. -/
theorem graded (hregular : g.Regular false shapes) : g.Graded g.grade where
  toThreaded := h.toThreaded
  bears x op hop := by
    by_cases hkind : op.kind ∈ [.result, .limit]
    · unfold grade
      rw [hop]
      cases op with
      | result form => cases form <;> trivial
      | limit n => exact fun he => h.limits x (he ▸ hop)
      | command c => cases c <;> simp [Operator.kind, GraphCommand.kind] at hkind
      | _ => simp [Operator.kind] at hkind
    · have hlimit : op.kind ≠ .limit := fun he => hkind (by simp [he])
      rw [grade_of_kind hop hkind]
      refine (h.steadfast x op hop hlimit).bears ?_
      split <;> exact Precision.noConfusion
  demands x op i hop hi := by
    obtain ⟨op', hop'⟩ := exists_operator?_source h.symmetric.linked hi
    by_cases hlimit : op'.kind = .limit
    · -- a limit is read by the result of a question only
      have hask := h.asked x i op' hi hop' hlimit
      obtain rfl := Option.some.inj (hop.symm.trans hask)
      rw [grade, hask]
      exact Precision.le_iff.2 (Nat.zero_le _)
    rw [grade_of_kind hop' (by simp [h.unread x i op' hi hop', hlimit])]
    split
    · next hloop =>
      have hx := h.onLoop_of_reads hregular hi hop' hloop.2 hloop.1
      rw [Operator.demand_eq]
      split
      · exact min_le_right _ _
      · next hkind => rw [grade_of_kind hop (h.kind_of_onLoop hop hx), if_pos ⟨hx, hkind⟩]
    · refine (Operator.demand_le op _).trans (Precision.le_iff.2 ?_)
      cases g.grade x <;> decide
  looped x op hop hloop := by
    rw [grade_of_kind hop (h.kind_of_onLoop hop hloop)]
    by_cases hkind : op.kind ∈ Operator.deduplicating
    · exact .inr ⟨if_neg fun hc => hc.2 hkind, hkind⟩
    · exact .inl (if_pos ⟨hloop, hkind⟩)
  root := by
    rw [grade_of_kind h.root (by simp [Operator.kind])]
    exact if_neg fun hc => h.not_onLoop_root hc.1

end Spun

end Spun

end Graph

/-- The graph of the plan is spun and has a single result. The plans nested in it are such plans,
too, and selections. -/
inductive Plan.Woven : Plan → Prop
  | intro {p : Plan} {result : OperatorId} {form : ResultForm} (spun : p.graph.Spun)
      (operator : p.graph.operator? result = some (.result form))
      (only : ∀ x op, p.graph.operator? x = some op → op.kind = .result → x = result)
      (nested : ∀ id op, p.graph.operator? id = some op → ∀ e ∈ op.nested, Plan.Woven e.2)
      (selections : ∀ id op, p.graph.operator? id = some op → ∀ e ∈ op.nested, e.2.IsSelection) :
      Woven p

/-- What is woven in a fit plan is graded by where its operators stand. -/
theorem Plan.Woven.graded {p : Plan} (h : p.Woven) (hfit : p.Fit false) : p.Graded := by
  induction h with
  | @intro p result form spun operator only nested selections ih =>
  obtain ⟨shapes, hregular⟩ := hfit.exists_regular
  obtain ⟨-, -, hfits⟩ := hfit.graph
  refine .intro (spun.graded hregular) operator only ?_ (fun id op hop e he => ?_) selections
  · unfold Graph.grade
    rw [operator]
  · exact ih id op hop e he (hfits id op hop e he)

/-! ## Graphs that grow -/

/-- An operator that may be drawn where nothing is cut off or counted. -/
structure Operator.Weavable (op : Operator Plan) : Prop where
  steadfast : op.kind ≠ .limit → op.Steadfast
  limit : op ≠ .limit 0
  nested : ∀ e ∈ op.nested, e.2.Woven ∧ e.2.IsSelection

namespace Graph

/-- A spun graph. The plans nested in it are spun, too. -/
structure Woven (g : Graph Plan) : Prop extends g.Spun where
  nested : ∀ x op, g.operator? x = some op → ∀ e ∈ op.nested, e.2.Woven ∧ e.2.IsSelection

/-- An edge that a woven graph may have. -/
structure Admits (g : Graph Plan) (x : OperatorId) (i : Input) : Prop where
  target : x ≠ root
  single : i.source ≠ root → ¬ Renames g.operator? x → ∀ y j, g.Reads y j → j.source = i.source →
    ¬ Renames g.operator? y → x = y ∧ i = j
  source : i.source = root → i = ⟨root, 0, false⟩ ∧
    ∃ op, g.operator? x = some op ∧ op.kind ∈ [.scan, .probe, .service]
  operand : ∀ op, g.operator? x = some op → op.kind ∉ spread → i.operand = 0
  unread : ∀ op, g.operator? i.source = some op → op.kind ≠ .result
  asked : ∀ op, g.operator? i.source = some op → op.kind = .limit →
    g.operator? x = some (.result .ask)

section Growth

variable {g g' base : Graph Plan} {ids : List OperatorId} {s t x : OperatorId} {n : Nat}
  {op : Operator Plan}

/-- A woven graph may get operators that read nothing, and edges that it admits. -/
theorem Woven.grown (h : g.Woven) (new : OperatorId → Input → Prop) (hsymmetric : g'.Symmetric)
    (hold : ∀ x op, g.operator? x = some op → g'.operator? x = some op)
    (hops : ∀ x op, g'.operator? x = some op → g.operator? x = some op ∨ op.Weavable)
    (hreads : ∀ x i, g'.Reads x i ↔ g.Reads x i ∨ new x i)
    (hnew : ∀ x i, new x i → g'.Admits x i) : g'.Woven := by
  have hlinked := h.symmetric.linked
  have hreader {x : OperatorId} {i : Input} {op : Operator Plan} (hi : g.Reads x i)
      (hop : g'.operator? x = some op) : g.operator? x = some op := by
    obtain ⟨op', hop'⟩ := exists_operator?_of_reads hlinked hi
    exact hop'.trans ((hold x op' hop').symm.trans hop)
  have hsource {x : OperatorId} {i : Input} {op : Operator Plan} (hi : g.Reads x i)
      (hop : g'.operator? i.source = some op) : g.operator? i.source = some op := by
    obtain ⟨op', hop'⟩ := exists_operator?_source hlinked hi
    exact hop'.trans ((hold _ op' hop').symm.trans hop)
  have hplain {x : OperatorId} (hx : ¬ Renames g'.operator? x) : ¬ Renames g.operator? x :=
    fun ⟨r, hr⟩ => hx ⟨r, hold x _ hr⟩
  refine { symmetric := hsymmetric, threads := ⟨?single, ?sources, ?operands⟩,
           root := hold _ _ h.root, unfed := ?unfed, steadfast := ?steadfast, limits := ?limits,
           unread := ?unread, asked := ?asked, nested := ?nested }
  case single =>
    intro x i y j hi hj hij hroot hx hy
    rcases (hreads x i).1 hi with hi' | hi'
    · rcases (hreads y j).1 hj with hj' | hj'
      · exact h.threads.single x i y j hi' hj' hij hroot (hplain hx) (hplain hy)
      · have hji := (hnew y j hj').single (hij ▸ hroot) hy x i hi hij hx
        exact ⟨hji.1.symm, hji.2.symm⟩
    · exact (hnew x i hi').single hroot hx y j hj hij.symm hy
  case sources =>
    intro x i hi hroot
    rcases (hreads x i).1 hi with hi | hi
    · obtain ⟨he, op, hop, hkind⟩ := h.threads.sources x i hi hroot
      exact ⟨he, op, hold x op hop, hkind⟩
    · exact (hnew x i hi).source hroot
  case operands =>
    intro x i op hi hop hkind
    rcases (hreads x i).1 hi with hi | hi
    · exact h.threads.operands x i op hi (hreader hi hop) hkind
    · exact (hnew x i hi).operand op hop hkind
  case unfed =>
    intro i hi
    rcases (hreads _ i).1 hi with hi | hi
    · exact h.unfed i hi
    · exact (hnew _ i hi).target rfl
  case steadfast =>
    intro x op hop hkind
    rcases hops x op hop with hop | hop
    · exact h.steadfast x op hop hkind
    · exact hop.steadfast hkind
  case limits =>
    intro x hop
    rcases hops x _ hop with hop | hop
    · exact h.limits x hop
    · exact hop.limit rfl
  case unread =>
    intro x i op hi hop
    rcases (hreads x i).1 hi with hi | hi
    · exact h.unread x i op hi (hsource hi hop)
    · exact (hnew x i hi).unread op hop
  case asked =>
    intro x i op hi hop hkind
    rcases (hreads x i).1 hi with hi | hi
    · exact hold _ _ (h.asked x i op hi (hsource hi hop) hkind)
    · exact (hnew x i hi).asked op hop hkind
  case nested =>
    intro x op hop
    rcases hops x op hop with hop | hop
    · exact h.nested x op hop
    · exact hop.nested

/-- An operator may be woven in, which reads nothing yet. -/
theorem Woven.add (h : g.Woven) (hop : op.Weavable) : (Graph.add op).Ends g fun id g' =>
    g'.Woven ∧ g.operator? id = none ∧
      (∀ x, g'.operator? x = if x = id then some op else g.operator? x) ∧
      ∀ x i, g'.Reads x i ↔ g.Reads x i := by
  have hwired := Wired.of_linked h.symmetric.linked
  have hsymmetric : (Graph.add op).Ends g fun _ g' => g'.Symmetric := by
    have hadded : (g.withOperator op).Symmetric :=
      ⟨balanced_congr succeeding_withOperator preceding_withOperator h.symmetric.balanced,
        fun s => by
          rw [succeeding_withOperator]
          exact h.symmetric.nodup s⟩
    unfold Graph.add
    simp only [Edit.ends_bind, Edit.ends_get, Edit.ends_set, Edit.ends_pure]
    exact hadded
  refine ((wired_add hwired op).and hsymmetric).mono fun id g' hends => ?_
  obtain ⟨⟨hid, hadded⟩, hsymmetric⟩ := hends
  have hfresh : g.operator? id = none := hwired.eq_none_of_le hid.ge
  refine ⟨h.grown (fun _ _ => False) hsymmetric (fun x op' hop' => ?_) (fun x op' hop' => ?_)
    (fun x i => by rw [hadded.reads, or_false]) fun _ _ hnew => hnew.elim, hfresh, hadded.operator?,
    hadded.reads⟩
  · rw [hadded.operator?, if_neg, hop']
    rintro rfl
    cases hfresh.symm.trans hop'
  · rw [hadded.operator?] at hop'
    split at hop'
    · exact .inr (Option.some.inj hop' ▸ hop)
    · exact .inl hop'

/-- An edge may be woven in where the graph admits it. -/
theorem Woven.connect {f : Bool} (h : g.Woven) (hadmits : ∀ g' : Graph Plan,
      (∀ x, g'.operator? x = g.operator? x) →
      (∀ x i, g'.Reads x i ↔ g.Reads x i ∨ x = t ∧ i = ⟨s, n, f⟩) → g'.Admits t ⟨s, n, f⟩) :
    (Graph.connect s t n f).Ends g fun _ g' => g'.Woven ∧ (∀ x, g'.operator? x = g.operator? x) ∧
      ∀ x i, g'.Reads x i ↔ g.Reads x i ∨ x = t ∧ i = ⟨s, n, f⟩ := by
  refine ((wired_connect (.of_linked h.symmetric.linked) n f).and
    (perform_keeps (.connect s t n f) h.symmetric)).mono fun _ g' hends => ?_
  obtain ⟨⟨-, -, hwired⟩, hsymmetric⟩ := hends
  refine ⟨h.grown _ hsymmetric (fun x op hop => (hwired.operator? x).trans hop)
    (fun x op hop => .inl ((hwired.operator? x).symm.trans hop)) hwired.reads ?_,
    hwired.operator?, hwired.reads⟩
  rintro x i ⟨rfl, rfl⟩
  exact hadmits g' hwired.operator? hwired.reads

end Growth

/-! ### What is still to be connected -/

/-- The operator may be fed on the operand. -/
def Ready (g : Graph Plan) (c : Cursor) : Prop :=
  ∃ op, g.operator? c.target = some op ∧ op.kind ∉ [.root, .replaceVar, .scan, .probe, .service] ∧
    (op.kind ∉ spread → c.operand = 0)

/-- Nothing reads the operator, apart from renamings. -/
structure Loose (g : Graph Plan) (x : OperatorId) : Prop where
  operator : ∃ op, g.operator? x = some op ∧ op.kind ∉ [.root, .result, .limit]
  unread : ∀ y i, g.Reads y i → i.source = x → Renames g.operator? y

/-- A drawing has led from one graph to another one, with new operators that are loose. What was
loose before has been left alone. -/
structure Gathers (base g : Graph Plan) (ids : List OperatorId) : Prop where
  woven : g.Woven
  kept : ∀ x op, base.operator? x = some op → g.operator? x = some op
  spared : ∀ x, base.Loose x → g.Loose x
  nodup : ids.Nodup
  fresh : ∀ x ∈ ids, base.operator? x = none
  loose : ∀ x ∈ ids, g.Loose x
  results : ∀ x op, g.operator? x = some op → op.kind = .result → base.operator? x = some op

namespace Gathers

variable {base g g' : Graph Plan} {ids ids' : List OperatorId} {s t x : OperatorId} {n : Nat}
  {op : Operator Plan}

/-- Nothing has been gathered to start with. -/
theorem refl (h : g.Woven) : g.Gathers g [] :=
  ⟨h, fun _ _ => id, fun _ => id, List.nodup_nil, fun _ h => absurd h List.not_mem_nil,
    fun _ h => absurd h List.not_mem_nil, fun _ _ h _ => h⟩

/-- What is new now was new before. -/
theorem of_fresh (h : base.Gathers g ids) (hx : g.operator? x = none) :
    base.operator? x = none := by
  by_contra hlive
  obtain ⟨op, hop⟩ := Option.ne_none_iff_exists'.1 hlive
  cases (h.kept x op hop).symm.trans hx

/-- What has been gathered in two steps. -/
theorem trans (h : base.Gathers g ids) (h' : g.Gathers g' ids') :
    base.Gathers g' (ids' ++ ids) where
  woven := h'.woven
  kept x op hop := h'.kept x op (h.kept x op hop)
  spared x hx := h'.spared x (h.spared x hx)
  nodup := List.nodup_append.2 ⟨h'.nodup, h.nodup, fun x hx y hy hxy => by
    obtain ⟨op, hop, -⟩ := (h.loose y hy).operator
    cases (h'.fresh x hx).symm.trans (hxy ▸ hop)⟩
  fresh x hx := (List.mem_append.1 hx).elim (fun hx => h.of_fresh (h'.fresh x hx)) (h.fresh x)
  loose x hx := (List.mem_append.1 hx).elim (h'.loose x) fun hx => h'.spared x (h.loose x hx)
  results x op hop hkind := h.results x op (h'.results x op hop hkind) hkind

/-- Some of what has been gathered may be forgotten. -/
theorem sub (h : base.Gathers g ids) (hsub : ids'.Subperm ids) : base.Gathers g ids' :=
  { h with
    nodup := by
      obtain ⟨l, hperm, hl⟩ := hsub
      exact hperm.nodup_iff.1 (h.nodup.sublist hl)
    fresh := fun x hx => h.fresh x (hsub.subset hx)
    loose := fun x hx => h.loose x (hsub.subset hx) }

/-- A new operator is loose. -/
theorem add (h : base.Gathers g ids) (hop : op.Weavable)
    (hkind : op.kind ∉ [.root, .result, .limit]) :
    (Graph.add op).Ends g fun id g' =>
      base.Gathers g' (id :: ids) ∧ g'.operator? id = some op ∧
        ∀ x op', g.operator? x = some op' → g'.operator? x = some op' := by
  refine (h.woven.add hop).mono fun id g' ⟨hwoven, hfresh, hops, hreads⟩ => ?_
  have hold (x : OperatorId) (op' : Operator Plan) (hop' : g.operator? x = some op') :
      g'.operator? x = some op' := by
    rw [hops, if_neg, hop']
    rintro rfl
    cases hfresh.symm.trans hop'
  have hnew : g'.operator? id = some op := (hops id).trans (if_pos rfl)
  have hspared (x : OperatorId) (hx : g.Loose x) : g'.Loose x := by
    obtain ⟨op', hop', hkind'⟩ := hx.operator
    refine ⟨⟨op', hold x op' hop', hkind'⟩, fun y i hi hsource => ?_⟩
    exact (hx.unread y i ((hreads y i).1 hi) hsource).imp fun r hr => hold y _ hr
  refine ⟨⟨hwoven, fun x op' hop' => hold x op' (h.kept x op' hop'),
    fun x hx => hspared x (h.spared x hx), ?_, fun x hx => ?_, fun x hx => ?_, ?_⟩, hnew, hold⟩
  · refine List.nodup_cons.2 ⟨fun hid => ?_, h.nodup⟩
    obtain ⟨op', hop', -⟩ := (h.loose id hid).operator
    cases hfresh.symm.trans hop'
  · rcases List.mem_cons.1 hx with rfl | hx
    · exact h.of_fresh hfresh
    · exact h.fresh x hx
  · rcases List.mem_cons.1 hx with rfl | hx
    · refine ⟨⟨op, hnew, hkind⟩, fun y i hi hsource => ?_⟩
      obtain ⟨op', hop'⟩ := exists_operator?_source h.woven.symmetric.linked ((hreads y i).1 hi)
      cases hfresh.symm.trans (hsource ▸ hop')
    · exact hspared x (h.loose x hx)
  · intro x op' hop' hresult
    rw [hops] at hop'
    split at hop'
    · obtain rfl := Option.some.inj hop'
      exact absurd hresult fun he => hkind (by simp [he])
    · exact h.results x op' hop' hresult

/-- Edges from operators that are not loose any more, or to renamings. -/
theorem connected {f : Bool} (h : base.Gathers g ids) (hwoven : g'.Woven)
    (hops : ∀ x, g'.operator? x = g.operator? x)
    (hreads : ∀ x i, g'.Reads x i ↔ g.Reads x i ∨ x = t ∧ i = ⟨s, n, f⟩)
    (hs : Renames g.operator? t ∨ s ∉ ids ∧ ¬ base.Loose s) : base.Gathers g' ids := by
  have hloose (x : OperatorId) (hx : g.Loose x) (hne : Renames g.operator? t ∨ x ≠ s) :
      g'.Loose x := by
    refine ⟨by simpa only [hops] using hx.operator, fun y i hi hsource => ?_⟩
    have hrenames : Renames g.operator? y := by
      rcases (hreads y i).1 hi with hi | ⟨rfl, rfl⟩
      · exact hx.unread y i hi hsource
      · exact hne.resolve_right fun hne => hne hsource.symm
    exact hrenames.imp fun r hr => (hops y).trans hr
  exact
    { woven := hwoven
      kept := fun x op hop => (hops x).trans (h.kept x op hop)
      spared := fun x hx => hloose x (h.spared x hx) (hs.imp_right fun hs he => hs.2 (he ▸ hx))
      nodup := h.nodup
      fresh := h.fresh
      loose := fun x hx => hloose x (h.loose x hx) (hs.imp_right fun hs he => hs.1 (he ▸ hx))
      results := fun x op hop => h.results x op ((hops x).symm.trans hop) }

/-- What is loose may be connected to an operator that is ready. -/
theorem connect (h : base.Gathers g (s :: ids)) (ht : g.Ready ⟨t, n⟩) (f : Bool) :
    (Graph.connect s t n f).Ends g fun _ g' =>
      base.Gathers g' ids ∧ ∀ x, g'.operator? x = g.operator? x := by
  obtain ⟨opₜ, hopₜ, hkindₜ, hoperand⟩ := ht
  simp only [List.mem_cons, List.not_mem_nil, or_false, not_or] at hkindₜ
  have hloose := h.loose s List.mem_cons_self
  obtain ⟨opₛ, hopₛ, hkindₛ⟩ := hloose.operator
  simp only [List.mem_cons, List.not_mem_nil, or_false, not_or] at hkindₛ
  have hroot {x : OperatorId} {op : Operator Plan} (hop : g.operator? x = some op)
      (hkind : op.kind ≠ .root) : x ≠ root := by
    rintro rfl
    exact hkind (Option.some.inj (hop.symm.trans h.woven.root) ▸ rfl)
  refine (h.woven.connect fun g' hops hreads =>
    { target := hroot hopₜ hkindₜ.1
      single := fun _ _ y j hj hsource hy => ?_
      source := fun he => absurd he (hroot hopₛ hkindₛ.1)
      operand := fun op hop =>
        Option.some.inj (hopₜ.symm.trans ((hops t).symm.trans hop)) ▸ hoperand
      unread := fun op hop =>
        Option.some.inj (hopₛ.symm.trans ((hops s).symm.trans hop)) ▸ hkindₛ.2.1
      asked := fun op hop he => absurd he
        (Option.some.inj (hopₛ.symm.trans ((hops s).symm.trans hop)) ▸ hkindₛ.2.2) }).mono
    fun _ g' ⟨hwoven, hops, hreads⟩ => ⟨?_, hops⟩
  · rcases (hreads y j).1 hj with hj | ⟨rfl, rfl⟩
    · exact absurd ((hloose.unread y j hj hsource).imp fun r hr => (hops y).trans hr) hy
    · exact ⟨rfl, rfl⟩
  · refine (h.sub (List.sublist_cons_self s ids).subperm).connected hwoven hops hreads
      (.inr ⟨(List.nodup_cons.1 h.nodup).1, fun hs => ?_⟩)
    obtain ⟨op, hop, -⟩ := hs.operator
    cases (h.fresh s List.mem_cons_self).symm.trans hop

/-- What is loose stays loose when it is renamed. -/
theorem rename {r : Renaming} (h : base.Gathers g ids) (hs : g.Loose s)
    (ht : g.operator? t = some (.replaceVar r)) : (Graph.connect s t 0 false).Ends g fun _ g' =>
      base.Gathers g' ids := by
  obtain ⟨opₛ, hopₛ, hkindₛ⟩ := hs.operator
  simp only [List.mem_cons, List.not_mem_nil, or_false, not_or] at hkindₛ
  refine (h.woven.connect fun g' hops hreads =>
    { target := ?_
      single := fun _ hx => absurd ⟨r, (hops t).trans ht⟩ hx
      source := fun he => ?_
      operand := fun _ _ _ => rfl
      unread := fun op hop =>
        Option.some.inj (hopₛ.symm.trans ((hops s).symm.trans hop)) ▸ hkindₛ.2.1
      asked := fun op hop he => absurd he
        (Option.some.inj (hopₛ.symm.trans ((hops s).symm.trans hop)) ▸ hkindₛ.2.2) }).mono
    fun _ g' ⟨hwoven, hops, hreads⟩ => h.connected hwoven hops hreads (.inl ⟨r, ht⟩)
  · rintro rfl
    cases h.woven.root.symm.trans ht
  · obtain rfl : s = root := he
    exact absurd (Option.some.inj (hopₛ.symm.trans h.woven.root) ▸ rfl) hkindₛ.1

/-- The root feeds sources. -/
theorem source (h : base.Gathers g ids) (hop : g.operator? t = some op)
    (hkind : op.kind ∈ [.scan, .probe, .service]) :
    (Graph.connect root t 0 false).Ends g fun _ g' =>
      base.Gathers g' ids := by
  have hroot : ¬ g.Loose root := fun hloose => by
    obtain ⟨op, hop, hkind⟩ := hloose.operator
    obtain rfl := Option.some.inj (h.woven.root.symm.trans hop)
    simp [Operator.kind] at hkind
  refine (h.woven.connect fun g' hops hreads =>
    { target := ?_
      single := fun hne => absurd rfl hne
      source := fun _ => ⟨rfl, op, (hops t).trans hop, hkind⟩
      operand := fun _ _ _ => rfl
      unread := fun op hop he => ?_
      asked := fun op hop he => ?_ }).mono
    fun _ g' ⟨hwoven, hops, hreads⟩ => h.connected hwoven hops hreads
      (.inr ⟨fun hroot' => hroot (h.loose _ hroot'), fun hroot' => hroot (h.spared _ hroot')⟩)
  · rintro rfl
    obtain rfl := Option.some.inj (h.woven.root.symm.trans hop)
    simp [Operator.kind] at hkind
  · obtain rfl := Option.some.inj (h.woven.root.symm.trans ((hops root).symm.trans hop))
    cases he
  · obtain rfl := Option.some.inj (h.woven.root.symm.trans ((hops root).symm.trans hop))
    cases he

end Gathers

end Graph

/-! ## Operators of paths and patterns -/

namespace Operator

variable {op : Operator Plan}

/-- The operator neither cuts off nor counts rows, and it carries neither a template nor plans. -/
def isWeavable : Operator Plan → Bool
  | .limit _ | .offset _ | .group _ _ | .construct _ | .filter _ => false
  | _ => true

/-- The test on operators is sound. -/
theorem weavable_of (h : op.isWeavable = true) : op.Weavable := by
  cases op with
  | limit | offset | group | construct | filter => cases h
  | _ => exact ⟨fun _ => trivial, nofun, fun e he => absurd he List.not_mem_nil⟩

/-- An operator that may be drawn between others. -/
structure Links (op : Operator Plan) : Prop extends op.Weavable where
  kind : op.kind ∉ [.root, .result, .limit, .replaceVar, .scan, .probe, .service]

theorem links_of (h : (op.isWeavable &&
    !List.contains [.root, .result, .limit, .replaceVar, .scan, .probe, .service] op.kind) = true) :
    op.Links := by
  rw [Bool.and_eq_true, Bool.not_eq_true', ← Bool.not_eq_true, List.contains_iff_mem] at h
  exact ⟨weavable_of h.1, h.2⟩

/-- A filter may stand between operators if the plans nested in it are woven selections. -/
theorem links_filter {f : Filter Plan} (h : ∀ e ∈ f.nested, e.2.Woven ∧ e.2.IsSelection) :
    (Operator.filter f).Links :=
  ⟨⟨fun _ => trivial, nofun, h⟩, by simp [Operator.kind]⟩

/-- An operator that has been attached is ready to be fed. -/
theorem Links.ready {g : Graph Plan} {c : Cursor} (h : op.Links)
    (hop : g.operator? c.target = some op) (hoperand : op.kind ∈ Graph.spread ∨ c.operand = 0) :
    g.Ready c := by
  have hkind := h.kind
  simp only [List.mem_cons, List.not_mem_nil, or_false, not_or] at hkind
  exact ⟨op, hop, by simp [hkind], hoperand.resolve_left⟩

end Operator

/-! ## Drawings -/

theorem Draw.ends_freshVar_graph {d : Draft} :
    Draw.freshVar.Ends d fun _ d' => d'.graph = d.graph := by
  unfold Draw.freshVar
  exact Edit.ends_bind.2
    (Edit.ends_get.2 (Edit.ends_bind.2 (Edit.ends_set.2 (Edit.ends_pure.2 rfl))))

/-- The drawing leaves a new operator that is to be connected, and nothing else. -/
def DrawsLoose (draw : Draw OperatorId) : Prop :=
  ∀ d : Draft, d.graph.Woven → draw.Ends d fun id d' => d.graph.Gathers d'.graph [id]

namespace Graph.Gathers

variable {base : Graph Plan} {d : Draft} {ids : List OperatorId} {s t : OperatorId} {n : Nat}
  {op : Operator Plan} {draw : Draw OperatorId}

/-- Something loose is gathered after the rest. -/
theorem next (h : base.Gathers d.graph ids) (hdraw : DrawsLoose draw) :
    draw.Ends d fun id d' => base.Gathers d'.graph (id :: ids) :=
  (hdraw d h.woven).mono fun _ _ h' => h.trans h'

theorem freshVar (h : base.Gathers d.graph ids) :
    Draw.freshVar.Ends d fun _ d' => base.Gathers d'.graph ids :=
  Draw.ends_freshVar_graph.mono fun _ _ hgraph => hgraph ▸ h

/-- Each drawing of a list gathers something loose. -/
theorem mapM {α : Type} {l : List α} {f : α → Draw OperatorId} (h : base.Gathers d.graph ids)
    (hf : ∀ a ∈ l, DrawsLoose (f a)) :
    (l.mapM f).Ends d fun outs d' => base.Gathers d'.graph (outs ++ ids) := by
  induction l generalizing d ids with
  | nil => exact Edit.ends_pure.2 h
  | cons a rest ih =>
      rw [List.mapM_cons]
      refine (h.next (hf a List.mem_cons_self)).bind fun out d₁ h₁ => ?_
      refine (ih h₁ fun b hb => hf b (List.mem_cons_of_mem _ hb)).bind fun outs d₂ h₂ => ?_
      exact Edit.ends_pure.2 (h₂.sub List.perm_middle.symm.subperm)

/-- What has been gathered is fed to an operator that is ready, and is loose no more. -/
theorem feed (h : base.Gathers d.graph (s :: ids)) (ht : d.graph.Ready ⟨t, n⟩) :
    (Draw.connect s t n).Ends d fun _ d' =>
      base.Gathers d'.graph ids ∧ ∀ x, d'.graph.operator? x = d.graph.operator? x := by
  unfold Draw.connect Draw.onGraph
  exact Edit.ends_within.2 (h.connect ht false)

/-- A new operator is loose. -/
theorem added (h : base.Gathers d.graph ids) (hop : op.Weavable)
    (hkind : op.kind ∉ [.root, .result, .limit]) : (Draw.add op).Ends d fun id d' =>
      base.Gathers d'.graph (id :: ids) ∧ d'.graph.operator? id = some op ∧
        ∀ x op', d.graph.operator? x = some op' → d'.graph.operator? x = some op' := by
  unfold Draw.add Draw.onGraph
  exact Edit.ends_within.2 (h.add hop hkind)

/-- An operator over others. -/
theorem combine (inputs : List OperatorId) (h : base.Gathers d.graph (inputs ++ ids))
    (hop : op.Links) (hspread : op.kind ∈ spread ∨ inputs.length ≤ 1) :
    (PathPlanner.combine op inputs).Ends d fun id d' =>
      base.Gathers d'.graph (id :: ids) ∧ d'.graph.operator? id = some op ∧
        ∀ x op', d.graph.operator? x = some op' → d'.graph.operator? x = some op' := by
  have hfeed {id : OperatorId} : ∀ (inputs : List OperatorId) (k : Nat) (d : Draft),
      base.Gathers d.graph (inputs ++ (id :: ids)) → d.graph.operator? id = some op →
      (op.kind ∈ spread ∨ inputs = [] ∨ inputs.length = 1 ∧ k = 0) →
      ((inputs.zipIdx k).forM fun e => Draw.connect e.1 id e.2).Ends d
        fun _ d' => base.Gathers d'.graph (id :: ids) ∧
          ∀ x, d'.graph.operator? x = d.graph.operator? x := by
    intro inputs
    induction inputs with
    | nil => exact fun k d h _ _ => Edit.ends_pure.2 ⟨h, fun _ => rfl⟩
    | cons input rest ih =>
        intro k d h hid hspread
        rw [List.zipIdx_cons, List.forM_eq_forM, List.forM_cons]
        refine (feed h (hop.ready hid ?_)).bind fun _ d₁ h₁ => ?_
        · exact hspread.imp_right fun h => (h.resolve_left (List.cons_ne_nil _ _)).2
        · refine (ih (k + 1) d₁ h₁.1 ((h₁.2 id).trans hid) ?_).mono fun _ d₂ h₂ =>
            ⟨h₂.1, fun x => (h₂.2 x).trans (h₁.2 x)⟩
          refine hspread.imp_right fun h => .inl ?_
          have hlength := (h.resolve_left (List.cons_ne_nil _ _)).1
          exact List.length_eq_zero_iff.1 (by simpa using hlength)
  have hkind := hop.kind
  simp only [List.mem_cons, List.not_mem_nil, or_false, not_or] at hkind
  unfold PathPlanner.combine
  refine (h.added hop.toWeavable (by simp [hkind])).bind fun id d₁ hadded => ?_
  obtain ⟨h₁, hid, hold⟩ := hadded
  refine (hfeed inputs 0 d₁ (h₁.sub List.perm_middle.subperm) hid ?_).bind fun _ d₂ h₂ => ?_
  · refine hspread.imp_right fun hlength => ?_
    rcases Nat.le_one_iff_eq_zero_or_eq_one.1 hlength with hlength | hlength
    · exact .inl (List.length_eq_zero_iff.1 hlength)
    · exact .inr ⟨hlength, rfl⟩
  · exact Edit.ends_pure.2 ⟨h₂.1, (h₂.2 id).trans hid, fun x op' hop' =>
      (h₂.2 x).trans (hold x op' hop')⟩

/-- An operator over a single other one. -/
theorem above (h : base.Gathers d.graph (s :: ids)) (hop : op.Links) :
    (PathPlanner.above s op).Ends d fun id d' => base.Gathers d'.graph (id :: ids) := by
  rw [PathPlanner.above_eq_combine]
  exact (combine [s] h hop (.inr (Nat.le_refl 1))).mono fun _ _ h' => h'.1

/-- A renaming of an operator that is left loose. -/
theorem renamed (h : base.Gathers d.graph ids) (hs : d.graph.Loose s) (r : Renaming) :
    (PathPlanner.above s (.replaceVar r)).Ends d fun id d' =>
      base.Gathers d'.graph (id :: ids) := by
  unfold PathPlanner.above
  refine ((refl h.woven).added (Operator.weavable_of rfl) (by simp [Operator.kind])).bind
    fun id d₁ ⟨h₁, hid, _⟩ => ?_
  unfold Draw.connect Draw.onGraph
  exact Edit.ends_bind.2 (Edit.ends_within.2 ((h₁.rename (h₁.spared s hs) hid).mono fun _ _ h₂ =>
    Edit.ends_pure.2 (h.trans h₂)))

end Graph.Gathers

/-- A source is fed by the root only, and is loose. -/
theorem drawsLoose_addSource {op : Operator Plan} (hop : op.Weavable)
    (hkind : op.kind ∈ [.scan, .probe, .service]) : DrawsLoose (Draw.addSource op) := by
  intro d hd
  unfold Draw.addSource
  refine ((Graph.Gathers.refl hd).added hop ?_).bind fun id d₁ ⟨h₁, hid, _⟩ => ?_
  · simp only [List.mem_cons, List.not_mem_nil, or_false] at hkind
    rcases hkind with he | he | he <;> simp [he]
  · unfold Draw.connect Draw.onGraph
    exact Edit.ends_bind.2 (Edit.ends_within.2 ((h₁.source hid hkind).mono fun _ _ h₂ =>
      Edit.ends_pure.2 h₂))

/-! ## Paths -/

namespace PathPlanner

open QuadAlgebra.Graph (Gathers)

variable {pp : PathPlanner} {path : DrawPath} {base : Graph Plan} {d : Draft}
  {ids : List OperatorId}
  {input join : OperatorId} {s o : Item}

theorem drawsLoose_scan (t : TriplePattern) : DrawsLoose (pp.scan t) :=
  drawsLoose_addSource (Operator.weavable_of rfl) (by simp [Planner.scan, Operator.kind])

theorem drawsLoose_probe : DrawsLoose pp.probe :=
  drawsLoose_addSource (Operator.weavable_of rfl) (by simp [Operator.kind])

/-- A projection takes the place of what it reads. -/
theorem gathers_project (h : base.Gathers d.graph (input :: ids)) :
    (pp.project input s o).Ends d fun id d' => base.Gathers d'.graph (id :: ids) :=
  h.above (Operator.links_of rfl)

/-- A distinct takes the place of what it reads. -/
theorem gathers_distinct (h : base.Gathers d.graph (input :: ids)) :
    (pp.distinct input).Ends d fun id d' => base.Gathers d'.graph (id :: ids) := by
  unfold distinct
  exact Edit.ends_ite (fun _ => h.above (Operator.links_of rfl)) fun _ => Edit.ends_pure.2 h

/-- Two operators become the operands of a new one. -/
theorem gathers_pair {op : Operator Plan} {first second : OperatorId} (hop : op.Links)
    (hspread : op.kind ∈ Graph.spread) (h : base.Gathers d.graph (second :: first :: ids)) :
    (combine op [first, second]).Ends d fun id d' => base.Gathers d'.graph (id :: ids) :=
  ((h.sub (List.Perm.swap second first ids).subperm).combine [first, second] hop
    (.inl hspread)).mono fun _ _ h' => h'.1

theorem drawsLoose_nodes (v : Variable) (asSubject : Bool) : DrawsLoose (pp.nodes v asSubject) := by
  intro d hd
  unfold nodes
  refine (Gathers.refl hd).freshVar.bind fun predicate d₁ h₁ => ?_
  refine h₁.freshVar.bind fun other d₂ h₂ => ?_
  exact (h₂.next (drawsLoose_scan _)).bind fun scanned d₃ h₃ => gathers_project h₃

/-- The path of length zero ends in a loose operator. -/
theorem drawsLoose_zeroLength (s o : Item) : DrawsLoose (pp.zeroLength s o) := by
  have habove {op : Operator Plan} (hop : op.Links) : DrawsLoose (do above (← pp.probe) op) :=
    fun d hd => ((Gathers.refl hd).next drawsLoose_probe).bind fun _ _ h => h.above hop
  unfold zeroLength
  split
  · intro d hd
    refine ((Gathers.refl hd).next (drawsLoose_nodes _ true)).bind fun subjects d₁ h₁ => ?_
    refine (h₁.next (drawsLoose_nodes _ false)).bind fun objects d₂ h₂ => ?_
    refine (gathers_pair (Operator.links_of rfl) (by decide) h₂).bind fun union d₃ h₃ => ?_
    refine (gathers_distinct h₃).bind fun all d₄ h₄ => ?_
    exact Edit.ends_ite (fun _ => Edit.ends_pure.2 h₄) fun _ => h₄.above (Operator.links_of rfl)
  · exact habove (Operator.links_of rfl)
  · exact habove (Operator.links_of rfl)
  · exact habove (Operator.links_of rfl)

/-- A part of a negated set ends in a loose operator. -/
theorem drawsLoose_negatedPart (excluded : List Term) (s o : Item) :
    DrawsLoose (pp.negatedPart excluded s o) := by
  intro d hd
  unfold negatedPart
  refine (Gathers.refl hd).freshVar.bind fun any d₁ h₁ => ?_
  refine (h₁.next (drawsLoose_scan _)).bind fun base d₂ h₂ => ?_
  refine Edit.ends_ite (fun _ => gathers_project h₂) fun _ => ?_
  have hremoved (iri : Term) : DrawsLoose (do
      above (← pp.scan ⟨s, .term iri, o⟩) (.bind any (.constant iri))) := fun d hd =>
    ((Gathers.refl hd).next (drawsLoose_scan _)).bind fun _ _ h => h.above (Operator.links_of rfl)
  have hrest {d' : Draft} {removed : OperatorId} (h : d.graph.Gathers d'.graph [removed, base]) :
      (do pp.project (← combine .minus [base, removed]) s o : Draw OperatorId).Ends d'
        fun id d'' => d.graph.Gathers d''.graph [id] :=
    (gathers_pair (Operator.links_of rfl) (by decide) h).bind fun _ _ h' => gathers_project h'
  refine (h₂.mapM fun iri _ => hremoved iri).bind fun removed d₃ h₃ => ?_
  dsimp only
  split
  · exact hrest h₃
  · refine (h₃.combine _ (Operator.links_of rfl) (.inl (by decide))).bind fun union d₄ h₄ => ?_
    exact hrest h₄.1

/-- A negated set ends in a loose operator. -/
theorem drawsLoose_negatedSet (members : List Excluded) (s o : Item) :
    DrawsLoose (pp.negatedSet members s o) := by
  have hpart (excluded : List Term) (s o : Item) : DrawsLoose (pp.negatedPart excluded s o) :=
    drawsLoose_negatedPart excluded s o
  intro d hd
  unfold negatedSet
  dsimp only
  split
  · exact ((Gathers.refl hd).next (hpart _ s o)).bind fun _ _ h => gathers_distinct h
  · split
    · exact ((Gathers.refl hd).next (hpart _ o s)).bind fun _ _ h => gathers_distinct h
    · refine ((Gathers.refl hd).next (hpart _ s o)).bind fun first d₁ h₁ => ?_
      refine (h₁.next (hpart _ o s)).bind fun second d₂ h₂ => ?_
      exact (gathers_pair (Operator.links_of rfl) (by decide) h₂).bind fun _ _ h =>
        gathers_distinct h

/-! ### Repetition -/

section Repetition

variable (hpath : ∀ s o, DrawsLoose (path s o))

include hpath

/-- A copy of a path is drawn and connected to a join. -/
theorem gathers_copy (h : base.Gathers d.graph ids) (hjoin : d.graph.operator? join = some .join)
    (n : Nat) : (do Draw.connect (← path s o) join n : Draw Unit).Ends d fun _ d' =>
      base.Gathers d'.graph ids ∧ d'.graph.operator? join = some .join := by
  refine (hpath s o d h.woven).bind fun copy d₁ h₁ => ?_
  have hjoin₁ := h₁.kept join _ hjoin
  have hlinks : (.join : Operator Plan).Links := Operator.links_of rfl
  refine ((h.trans h₁).feed (hlinks.ready hjoin₁ ?_)).mono
    fun _ d₂ ⟨h₂, hops⟩ => ⟨h₂, (hops join).trans hjoin₁⟩
  exact .inl (by decide)

/-- Copies of a path feed a join, one after the other, and nothing else is gathered. -/
theorem gathers_copies (h : base.Gathers d.graph ids) (hjoin : d.graph.operator? join = some .join)
    (first count : Nat) (start : Item) : (copies path join first count start).Ends d fun _ d' =>
      base.Gathers d'.graph ids ∧ d'.graph.operator? join = some .join := by
  induction count generalizing d first start with
  | zero => exact Edit.ends_pure.2 ⟨h, hjoin⟩
  | succ count ih =>
      unfold copies
      refine (Draw.ends_freshVar_graph (d := d)).bind fun next d₁ hgraph => ?_
      rw [← hgraph] at h hjoin
      rw [← bind_assoc]
      exact (gathers_copy hpath h hjoin first).bind fun _ _ h₂ => ih h₂.1 h₂.2 _ _

/-- Copies of a path in a row, the last of which is drawn by another path. -/
theorem gathers_row {last : DrawPath} (hlast : ∀ s o, DrawsLoose (last s o))
    (count : Nat) (s o : Item)
    {finish : OperatorId → Draw OperatorId}
    (hfinish : ∀ d' join, base.Gathers d'.graph (join :: ids) →
      (finish join).Ends d' fun id d'' => base.Gathers d''.graph (id :: ids))
    (h : base.Gathers d.graph ids) : (do
      let join ← Draw.add .join
      let item ← copies path join 0 count s
      Draw.connect (← last item o) join count
      finish join : Draw OperatorId).Ends d fun id d' => base.Gathers d'.graph (id :: ids) := by
  refine (h.added (Operator.weavable_of rfl) (by simp [Operator.kind])).bind
    fun join d₁ ⟨h₁, hjoin₁, _⟩ => ?_
  refine (gathers_copies hpath h₁ hjoin₁ 0 count s).bind fun item d₂ ⟨h₂, hjoin₂⟩ => ?_
  rw [← bind_assoc]
  exact (gathers_copy hlast h₂ hjoin₂ count).bind fun _ d₃ h₃ => hfinish d₃ join h₃.1

theorem drawsLoose_chain (count : Nat) (s o : Item) : DrawsLoose (pp.chain path count s o) := by
  intro d hd
  unfold chain
  refine Edit.ends_ite (fun _ => hpath s o d hd) fun _ => ?_
  exact gathers_row hpath hpath (count - 1) s o (fun d' join h => gathers_project h) (.refl hd)

theorem drawsLoose_positiveRange (min max : Nat) (s o : Item) :
    DrawsLoose (pp.positiveRange path min max s o) := by
  intro d hd
  unfold positiveRange
  refine ((Gathers.refl hd).mapM fun n _ => drawsLoose_chain hpath n s o).bind
    fun outputs d₁ h₁ => ?_
  split
  · exact Edit.ends_pure.2 h₁
  · exact (h₁.combine _ (Operator.links_of rfl) (.inl (by decide))).bind fun union d₂ h₂ =>
      gathers_distinct h₂.1

theorem drawsLoose_withZero (s o : Item) : DrawsLoose (pp.withZero path s o) := by
  intro d hd
  unfold withZero
  refine ((Gathers.refl hd).next (drawsLoose_zeroLength s o)).bind fun none d₁ h₁ => ?_
  refine (h₁.next (hpath s o)).bind fun more d₂ h₂ => ?_
  exact (gathers_pair (Operator.links_of rfl) (by decide) h₂).bind fun union d₃ h₃ =>
    gathers_distinct h₃

/-- What is known in a loop is renamed and extended by another copy of the path, which is fed back
to the union that the loop starts with. -/
theorem drawsLoose_loop (s o : Variable) : DrawsLoose (pp.loop path s o) := by
  intro d hd
  unfold loop
  refine ((Gathers.refl hd).next (hpath _ _)).bind fun start d₁ h₁ => ?_
  refine (h₁.combine [start] (Operator.links_of rfl) (.inl (by decide))).bind
    fun union d₂ ⟨h₂, hunion₂, _⟩ => ?_
  rw [above_eq_combine]
  refine (h₂.combine [union] (Operator.links_of rfl) (.inr (Nat.le_refl 1))).bind
    fun known d₃ ⟨h₃, _, hold₃⟩ => ?_
  have hunion₃ := hold₃ union _ hunion₂
  -- from here on what is known is left as it is, and so is the union
  have hknown := h₃.loose known List.mem_cons_self
  suffices hrest : (do
      let step ← Draw.freshVar
      let renamed ← above known (.replaceVar (OrdMap.singleton step o))
      let unequal ← above renamed (.ofCondition (.notEqual (.variable s) (.variable step)))
      let join ← above unequal .join
      Draw.connect (← path (.var step) (.var o)) join 1
      let back ← above join (.projection (pp.endpoints (.var s) (.var o)))
      Draw.onGraph (Graph.connect back union 1 true)
      return known : Draw OperatorId).Ends d₃ fun id d₄ => id = known ∧
        d₃.graph.Gathers d₄.graph [] from
    hrest.mono fun id d₄ ⟨hid, h₄⟩ => hid ▸ h₃.trans h₄
  refine (Gathers.refl h₃.woven).freshVar.bind fun step d₄ h₄ => ?_
  refine (h₄.renamed (h₄.spared known hknown) _).bind fun renamed d₅ h₅ => ?_
  refine (h₅.above (Operator.links_filter fun e he => absurd he List.not_mem_nil)).bind
    fun unequal d₆ h₆ => ?_
  rw [above_eq_combine]
  refine (h₆.combine [unequal] (Operator.links_of rfl) (.inl (by decide))).bind
    fun join d₇ ⟨h₇, hjoin₇, _⟩ => ?_
  rw [← bind_assoc]
  refine (gathers_copy hpath h₇ hjoin₇ 1).bind fun _ d₈ ⟨h₈, _⟩ => ?_
  refine (h₈.above (Operator.links_of rfl)).bind fun back d₉ h₉ => ?_
  have hready : d₉.graph.Ready ⟨union, 1⟩ :=
    (Operator.links_of rfl).ready (h₉.kept union _ hunion₃) (.inl (by decide))
  unfold Draw.onGraph
  exact Edit.ends_bind.2 (Edit.ends_within.2 ((h₉.connect hready true).mono fun _ _ ⟨h, _⟩ =>
    Edit.ends_pure.2 ⟨rfl, h⟩))

/-- A closure ends in a loose operator. -/
theorem drawsLoose_oneOrMore (s o : Item) : DrawsLoose (pp.oneOrMore path s o) := by
  refine closure_induction (C := fun _ _ draw => DrawsLoose draw) (drawsLoose_loop hpath)
    (fun _ _ _ _ _ _ _ hcore d hd => ?_)
    (fun _ _ _ hf d hd => ?_) 3 s o (fun h => absurd h (by decide))
  · refine ((Gathers.refl hd).next hcore).bind fun core d₁ h₁ => ?_
    exact (h₁.above (Operator.links_of rfl)).bind fun filtered d₂ h₂ => gathers_project h₂
  · exact (Gathers.refl hd).freshVar.bind fun v d₁ h₁ =>
      (h₁.next (hf v)).mono fun _ _ h₂ => h₂

theorem drawsLoose_bounded (min max : Nat) (s o : Item) :
    DrawsLoose (pp.bounded path min max s o) := by
  intro d hd
  unfold bounded
  refine Edit.ends_ite (fun _ => Draw.ends_malformed) fun _ =>
    Edit.ends_ite (fun _ => drawsLoose_zeroLength s o d hd) fun _ =>
      Edit.ends_ite (fun _ => ?_) fun _ => drawsLoose_positiveRange hpath min max s o d hd
  exact drawsLoose_withZero (drawsLoose_positiveRange hpath 1 max) s o d hd

theorem drawsLoose_unbounded (min : Nat) (s o : Item) : DrawsLoose (pp.unbounded path min s o) := by
  unfold unbounded
  split
  · exact drawsLoose_withZero (drawsLoose_oneOrMore hpath) s o
  · exact drawsLoose_oneOrMore hpath s o
  · next steps =>
    intro d hd
    refine gathers_row hpath (drawsLoose_oneOrMore hpath) _ s o (fun d' join h => ?_) (.refl hd)
    exact (gathers_project h).bind fun projected d₁ h₁ => gathers_distinct h₁

end Repetition

end PathPlanner

/-- A path between two items leaves one operator to connect. -/
theorem Path.drawsLoose {pp : PathPlanner} : (p : Path) → (s o : Item) → DrawsLoose (p.draw pp s o)
  | .predicate _, _, _ => PathPlanner.drawsLoose_scan _
  | .inverse p, s, o => p.drawsLoose o s
  | .sequence p q, s, o => fun d hd => by
      unfold Path.draw
      refine (Graph.Gathers.refl hd).freshVar.bind fun middle d₁ h₁ => ?_
      refine (h₁.next (p.drawsLoose s _)).bind fun left d₂ h₂ => ?_
      refine (h₂.next (q.drawsLoose _ o)).bind fun right d₃ h₃ => ?_
      exact (PathPlanner.gathers_pair (Operator.links_of rfl) (by decide) h₃).bind fun join d₄ h₄ =>
        PathPlanner.gathers_project h₄
  | .alternative p q, s, o => fun d hd => by
      unfold Path.draw
      refine ((Graph.Gathers.refl hd).next (p.drawsLoose s o)).bind fun left d₁ h₁ => ?_
      refine (h₁.next (q.drawsLoose s o)).bind fun right d₂ h₂ => ?_
      refine (PathPlanner.gathers_pair (Operator.links_of rfl) (by decide) h₂).bind
        fun union d₃ h₃ => ?_
      exact (PathPlanner.gathers_project h₃).bind fun projected d₄ h₄ =>
        PathPlanner.gathers_distinct h₄
  | .negatedSet members, s, o => PathPlanner.drawsLoose_negatedSet members s o
  | .repetition p min (some max), s, o => PathPlanner.drawsLoose_bounded p.drawsLoose min max s o
  | .repetition p min none, s, o => PathPlanner.drawsLoose_unbounded p.drawsLoose min s o
  | .oneOrMore p, s, o => PathPlanner.drawsLoose_oneOrMore p.drawsLoose s o
  | .zeroOrMore p, s, o =>
      PathPlanner.drawsLoose_withZero (PathPlanner.drawsLoose_oneOrMore p.drawsLoose) s o
  | .zeroOrOne p, s, o => PathPlanner.drawsLoose_withZero p.drawsLoose s o

end QuadAlgebra
