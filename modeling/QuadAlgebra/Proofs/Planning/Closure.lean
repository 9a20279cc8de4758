import QuadAlgebra.Proofs.Planning.Loops
import QuadAlgebra.Proofs.Planning.Repetition

/-!
# Transitive closures

The closure of a path is drawn as a loop: a copy of the path, the operators of the loop up to its
join, a second copy that feeds the join, and an edge back. What has been drawn first stays as it is
while the rest is drawn (`LoopFront.of_keeps`), so that the finished graph has a loop in the sense
of `LoopIn`, and the loop draws the pairs that it reaches (`placed_loop`). Between other items than
two variables the closure is drawn between interim variables and restricted
(`DrawsPairs.oneOrMore`).
-/

namespace QuadAlgebra

open Solution (Ends Through)

variable {src : Source} {graph : Option Term} {pp : PathPlanner} {path : DrawPath}
  {R : Term → Term → Prop} {d d₁ d₂ d₃ d' : Draft} {s o step : Variable}
  {base out last id : OperatorId} {input first : Nat} {op : Operator Plan}
  {producers parts new : List Input}

/-! ## Single operators -/

/-- A draft with one operator more, which nobody reads yet. -/
structure Draft.Adds (d d' : Draft) (id : Nat) (op : Operator Plan) (inputs : List Input) :
    Prop where
  id_eq : id = d.size
  size_eq : d'.size = d.size + 1
  nextVar_eq : d'.nextVar = d.nextVar
  keeps : d.Keeps d' untouched
  has : d'.graph.Has id op inputs
  unread : d'.graph.Unread id

/-- One operator over another one. -/
theorem Draft.Grows.above (h : Draft.Grows src untouched d d₁)
    (hrun : (PathPlanner.above input op).runOn d₁ = (.ok id, d'))
    (hplain : op.IsPlain src) (hold : d.size ≤ input) (hlt : input < d₁.size) :
    d₁.Adds d' id op [⟨input, 0, false⟩] ∧ Draft.Grows src untouched d d' := by
  rw [PathPlanner.above_eq_combine] at hrun
  obtain ⟨rfl, hfed⟩ := PathPlanner.combine_eq_ok h.ext.sound hrun
  obtain ⟨hkeeps, hhas⟩ := hfed.new_operator h.ext.sound
  have hunread : (d₁.withOperator op).graph.Unread d₁.size :=
    Graph.unread_withOperator h.ext.sound.tidy
  have hsource : ∀ i ∈ PathPlanner.inputsFrom [input], i.source = input := fun i hi =>
    List.mem_singleton.1 (PathPlanner.mem_inputsFrom hi).2
  have hother : ∀ i ∈ PathPlanner.inputsFrom [input], i.source ≠ d₁.size := fun i hi =>
    hsource i hi ▸ Nat.ne_of_lt hlt
  refine ⟨⟨rfl, by rw [hfed.size, Draft.size_withOperator], hfed.nextVar, hkeeps, hhas,
    hfed.unread hunread hother⟩, ?_⟩
  exact (h.withOperator hplain).fed hfed (.inl h.ext.size_le) (.inl ⟨hunread, hother⟩) fun i hi =>
    .inr (hsource i hi ▸ hold)

/-- One edge more between operators of a drawing, on a new operand. -/
theorem Draft.Grows.connect {target source operand : Nat} {feedback : Bool} (hd : d.Sound)
    (h : Draft.Grows src untouched d d₁) (htarget : d.size ≤ target) (hsource : d.size ≤ source)
    (hranks : (d₁.graph.Unread target ∧ source ≠ target) ∨ feedback = true)
    (hnew : ∀ i ∈ d₁.graph.inputs target, i.operand < operand)
    (hrun : (Draw.onGraph (Graph.connect source target operand feedback)).runOn d₁ = (.ok (), d')) :
    d₁.FedBy d' target [⟨source, operand, feedback⟩] ∧ Draft.Grows src untouched d d' := by
  have hroot : target ≠ Graph.root := Nat.ne_of_gt (Nat.lt_of_lt_of_le hd.size_pos htarget)
  have hfed := Draft.FedBy.of_connect h.ext.sound hroot hnew hrun
  refine ⟨hfed, h.fed hfed (.inl htarget) ?_ (List.forall_mem_singleton.2 (.inr hsource))⟩
  exact hranks.imp (fun hunread => ⟨hunread.1, List.forall_mem_singleton.2 hunread.2⟩)
    List.forall_mem_singleton.2

/-! ## Parts of loops -/

namespace LoopFront

theorem of_keeps (h : LoopFront d.graph s o step first producers parts)
    (hkeeps : d.Keeps d' untouched) (hlt : first + 4 < d.size) :
    LoopFront d'.graph s o step first producers parts where
  union := hkeeps.has h.union (by omega) not_false
  known := hkeeps.has h.known (by omega) not_false
  renamed := hkeeps.has h.renamed (by omega) not_false
  unequal := hkeeps.has h.unequal (by omega) not_false
  join := hkeeps.has h.join hlt not_false

/-- A loop whose union reads more. -/
theorem feed_union (h : LoopFront d.graph s o step first producers parts)
    (hfed : d.FedBy d' first new) (hlt : first + 4 < d.size) :
    LoopFront d'.graph s o step first (producers ++ new) parts where
  union := hfed.has h.union
  known := hfed.keeps.has h.known (by omega) (Nat.ne_of_gt (by omega))
  renamed := hfed.keeps.has h.renamed (by omega) (Nat.ne_of_gt (by omega))
  unequal := hfed.keeps.has h.unequal (by omega) (Nat.ne_of_gt (by omega))
  join := hfed.keeps.has h.join hlt (Nat.ne_of_gt (by omega))

/-- A loop whose join reads more. -/
theorem feed_join (h : LoopFront d.graph s o step first producers parts)
    (hfed : d.FedBy d' (first + 4) new) (hlt : first + 4 < d.size) :
    LoopFront d'.graph s o step first producers (parts ++ new) where
  union := hfed.keeps.has h.union (by omega) (Nat.ne_of_lt (by omega))
  known := hfed.keeps.has h.known (by omega) (Nat.ne_of_lt (by omega))
  renamed := hfed.keeps.has h.renamed (by omega) (Nat.ne_of_lt (by omega))
  unequal := hfed.keeps.has h.unequal (by omega) (Nat.ne_of_lt (by omega))
  join := hfed.has h.join

end LoopFront

/-- A loop that has been drawn up to its join, which nobody reads yet. -/
structure LoopOpened (src : Source) (s o : Variable) (base : OperatorId) (d d₁ d₂ : Draft)
    (step : Variable) (union known join : Nat) : Prop where
  union_eq : union = d₁.size
  known_eq : known = d₁.size + 1
  join_eq : join = d₁.size + 4
  size_eq : d₂.size = d₁.size + 5
  step_eq : ∃ n ≥ d.nextVar, n < d₂.nextVar ∧ step = .interim n
  grows : Draft.Grows src untouched d d₂
  keeps : d₁.Keeps d₂ untouched
  front : LoopFront d₂.graph s o step d₁.size [⟨base, 0, false⟩] [⟨d₁.size + 3, 0, false⟩]
  unread : d₂.graph.Unread join

/-- The first half of a loop. -/
def PathPlanner.openLoop (s o : Variable) (base : OperatorId) :
    Draw (OperatorId × OperatorId × Variable × OperatorId) := do
  let union ← combine .union [base]
  let known ← above union .distinct
  let step ← Draw.freshVar
  let renamed ← above known (.replaceVar (OrdMap.singleton step o))
  let unequal ← above renamed (.ofCondition (.notEqual (.variable s) (.variable step)))
  let join ← above unequal .join
  return (union, known, step, join)

theorem loopOpened {base union known join : OperatorId} (h : Draft.Grows src untouched d d₁)
    (hbase : d.size ≤ base) (hlt : base < d₁.size)
    (hrun : (PathPlanner.openLoop s o base).runOn d₁ = (.ok (union, known, step, join), d₂)) :
    LoopOpened src s o base d d₁ d₂ step union known join := by
  obtain ⟨union, u, hunion, hrun⟩ := Edit.runOn_bind_eq_ok.1 hrun
  obtain ⟨known, k, hknown, hrun⟩ := Edit.runOn_bind_eq_ok.1 hrun
  obtain ⟨step, v, hfresh, hrun⟩ := Edit.runOn_bind_eq_ok.1 hrun
  obtain ⟨renamed, w, hrenamed, hrun⟩ := Edit.runOn_bind_eq_ok.1 hrun
  obtain ⟨unequal, x, hunequal, hrun⟩ := Edit.runOn_bind_eq_ok.1 hrun
  obtain ⟨join, y, hjoin, hrun⟩ := Edit.runOn_bind_eq_ok.1 hrun
  cases hrun
  rw [← PathPlanner.above_eq_combine] at hunion
  have hold := h.ext.size_le
  obtain ⟨au, gu⟩ := h.above hunion .union hbase hlt
  obtain rfl : union = d₁.size := au.id_eq
  have hu := au.size_eq
  obtain ⟨ak, gk⟩ := gu.above hknown Operator.maps_distinct.isPlain (by omega) (by omega)
  obtain rfl : known = d₁.size + 1 := ak.id_eq.trans hu
  have hk := ak.size_eq
  obtain ⟨rfl, -, hnext, hgraph, -⟩ := freshVar_eq_ok src True gk.ext.sound hfresh
  have gv := gk.of_graph_eq hgraph (Nat.le_of_lt (hnext ▸ Nat.lt_succ_self _))
  have hv : v.size = k.size := by rw [Draft.size, Draft.size, hgraph]
  obtain ⟨aw, gw⟩ := gv.above hrenamed (Operator.maps_replaceVar _).isPlain (by omega) (by omega)
  obtain rfl : renamed = d₁.size + 2 := aw.id_eq.trans (by omega)
  have hw := aw.size_eq
  obtain ⟨ax, gx⟩ := gw.above hunequal (Operator.maps_ofCondition rfl).isPlain (by omega) (by omega)
  obtain rfl : unequal = d₁.size + 3 := ax.id_eq.trans (by omega)
  have hx := ax.size_eq
  obtain ⟨ay, gy⟩ := gx.above hjoin .join (by omega) (by omega)
  obtain rfl : join = d₁.size + 4 := ay.id_eq.trans (by omega)
  have hy := ay.size_eq
  -- every operator stays as it has been drawn
  have kw := ax.keeps.trans ay.keeps fun _ _ => id
  have kv := aw.keeps.trans kw fun _ _ => id
  have kk := ((Draft.Extends.refl gk.ext.sound).toKeeps.of_graph_eq hgraph).trans kv fun _ _ => id
  have ku := ak.keeps.trans kk fun _ _ => id
  refine ⟨rfl, rfl, rfl, by omega, ⟨k.nextVar, gk.ext.nextVar_le, ?_, rfl⟩, gy,
    au.keeps.trans ku fun _ _ => id,
    ⟨?_, ?_, ?_, ?_, ay.has⟩, ay.unread⟩
  · rw [ay.nextVar_eq, ax.nextVar_eq, aw.nextVar_eq, hnext]
    exact Nat.lt_succ_self _
  · exact ku.has au.has (by omega) not_false
  · exact kk.has ak.has (by omega) not_false
  · exact kw.has aw.has (by omega) not_false
  · exact ay.keeps.has ax.has (by omega) not_false

/-- The second half of a loop. -/
def PathPlanner.closeLoop (pp : PathPlanner) (s o : Variable) (out union join : OperatorId) :
    Draw Unit := do
  Draw.connect out join 1
  let back ← above join (.projection (pp.endpoints (.var s) (.var o)))
  Draw.onGraph (Graph.connect back union 1 true)

/-- A loop that has been closed. What has been drawn stays, apart from the inputs of the union and
of the join. -/
structure LoopClosed (src : Source) (pp : PathPlanner) (s o : Variable) (d d₃ d' : Draft)
    (step : Variable) (base out : OperatorId) (first : Nat) : Prop where
  size_eq : d'.size = d₃.size + 1
  grows : Draft.Grows src untouched d d'
  keeps : d₃.Keeps d' fun id => id = first ∨ id = first + 4
  loop : LoopIn pp d'.graph s o step base first out d₃.size

theorem loopClosed {out : Nat} (hd : d.Sound) (h : Draft.Grows src untouched d d₃)
    (front : LoopFront d₃.graph s o step first [⟨base, 0, false⟩] [⟨first + 3, 0, false⟩])
    (hunread : d₃.graph.Unread (first + 4)) (hfirst : d.size ≤ first) (hout : first + 4 < out)
    (hlt : out < d₃.size)
    (hrun : (pp.closeLoop s o out first (first + 4)).runOn d₃ = (.ok (), d')) :
    LoopClosed src pp s o d d₃ d' step base out first := by
  obtain ⟨⟨⟩, d₄, hconnect, hrun⟩ := Edit.runOn_bind_eq_ok.1 hrun
  obtain ⟨last, d₅, hlast, hback⟩ := Edit.runOn_bind_eq_ok.1 hrun
  -- the second copy feeds the join
  have hparts : ∀ i ∈ d₃.graph.inputs (first + 4), i.operand < 1 := by
    rw [front.join.2]
    exact List.forall_mem_singleton.2 Nat.zero_lt_one
  obtain ⟨hfed, gfed⟩ := h.connect hd (by omega) (by omega)
    (.inl ⟨hunread, Nat.ne_of_gt hout⟩) hparts hconnect
  have hfedSize := hfed.size
  -- what the join finds is fed back to the union
  obtain ⟨aback, gback⟩ :=
    gfed.above hlast (Operator.maps_projection _).isPlain (by omega) (by omega)
  have hbackSize := aback.size_eq
  obtain rfl : last = d₃.size := aback.id_eq.trans hfedSize
  have front := (front.feed_join hfed (by omega)).of_keeps aback.keeps (by omega)
  have hproducers : ∀ i ∈ d₅.graph.inputs first, i.operand < 1 := by
    rw [front.union.2]
    exact List.forall_mem_singleton.2 Nat.zero_lt_one
  obtain ⟨hfedBack, gdone⟩ := gback.connect hd hfirst (by omega) (.inr rfl) hproducers hback
  have hdoneSize := hfedBack.size
  have hkeeps := (aback.keeps.mono fun _ h => h.elim).trans hfedBack.keeps fun _ _ => id
  have hlastNe : d₃.size ≠ first := Nat.ne_of_gt (by omega)
  exact ⟨by omega, gdone, (hfed.keeps.mono fun _ => Or.inr).trans hkeeps fun _ _ => Or.inl,
    ⟨front.feed_union hfedBack (by omega), hfedBack.keeps.has aback.has (by omega) hlastNe⟩⟩

theorem PathPlanner.loop_eq (pp : PathPlanner) (path : DrawPath) (s o : Variable) :
    pp.loop path s o = do
      let base ← path (.var s) (.var o)
      let (union, known, step, join) ← openLoop s o base
      pp.closeLoop s o (← path (.var step) (.var o)) union join
      return known := by
  simp only [PathPlanner.loop, openLoop, closeLoop, bind_assoc, pure_bind]

/-! ## Finished loops -/

/-- A finished loop with the two copies of its body. -/
structure LoopDrawn (src : Source) (pp : PathPlanner) (R : Term → Term → Prop) (s o : Variable)
    (d d₁ d₂ d₃ d' : Draft) (step : Variable) (base out : OperatorId) : Prop
    extends LoopClosed src pp s o d d₃ d' step base out d₁.size where
  body : Placed src True untouched d d₁ [base] [Ends (.var s) (.var o) R]
  copy : Placed src True untouched d₂ d₃ [out] [Ends (.var step) (.var o) R]
  fresh : ∃ n ≥ d.nextVar, step = .interim n
  size_copy : d₂.size = d₁.size + 5
  keeps_body : d₁.Keeps d' untouched

theorem loopDrawn (h : DrawsPairs src graph path R) (hd : d.Sound)
    (hs : Item.CanEnd (src.activeTriples graph) d.nextVar (.var s))
    (ho : Item.CanEnd (src.activeTriples graph) d.nextVar (.var o)) {known : OperatorId}
    (hrun : (pp.loop path s o).runOn d = (.ok known, d')) :
    ∃ d₁ d₂ d₃ step base out, known = d₁.size + 1 ∧
      LoopDrawn src pp R s o d d₁ d₂ d₃ d' step base out := by
  rw [PathPlanner.loop_eq] at hrun
  obtain ⟨base, d₁, hbase, hrun⟩ := Edit.runOn_bind_eq_ok.1 hrun
  obtain ⟨⟨union, known, step, join⟩, d₂, hopen, hrun⟩ := Edit.runOn_bind_eq_ok.1 hrun
  obtain ⟨out, d₃, hout, hrun⟩ := Edit.runOn_bind_eq_ok.1 hrun
  obtain ⟨⟨⟩, d₄, hclose, hrun⟩ := Edit.runOn_bind_eq_ok.1 hrun
  cases hrun
  have hbody := h _ _ d d₁ base hd hs ho hbase
  have hsize := hbody.ext.size_le
  obtain ⟨hbaseOld, hbaseLt⟩ := hbody.range base List.mem_cons_self
  have hopened := loopOpened hbody.toGrows hbaseOld hbaseLt hopen
  obtain rfl := hopened.union_eq
  obtain rfl := hopened.join_eq
  obtain ⟨n, hn, hn', rfl⟩ := hopened.step_eq
  have hopenedSize := hopened.size_eq
  have hjoin : d₁.size + 4 < d₂.size := by omega
  have hjoinRoot : d₁.size + 4 ≠ Graph.root := Nat.succ_ne_zero _
  -- the second copy runs from the fresh variable on
  have hcopy := h _ _ d₂ d₃ out hopened.grows.ext.sound (Item.CanEnd.interim hn')
    (ho.mono hopened.grows.ext.nextVar_le) hout
  obtain ⟨hold, hlt⟩ := hcopy.range out List.mem_cons_self
  have hclosed := loopClosed hd (hopened.grows.trans hcopy.toGrows fun _ _ => id)
    (hopened.front.of_keeps hcopy.ext.toKeeps hjoin)
    (hcopy.ext.unread hjoin hjoinRoot hopened.unread) hsize (Nat.lt_of_lt_of_le hjoin hold) hlt
    hclose
  -- the first copy comes before what closing the loop has changed
  have hkeeps := (hcopy.ext.toKeeps.mono fun _ h => h.elim).trans hclosed.keeps fun _ _ => id
  refine ⟨d₁, d₂, d₃, _, base, out, hopened.known_eq, hclosed, hbody, hcopy, ⟨n, hn, rfl⟩,
    hopenedSize, hopened.keeps.trans hkeeps fun id hid hid' => ?_⟩
  rcases hid' with rfl | rfl
  · exact absurd hid (Nat.lt_irrefl _)
  · exact absurd hid (by omega)

theorem LoopIn.of_agrees {g G : Graph Plan} {lo hi last : Nat}
    (h : LoopIn pp g s o step base first out last) (hagrees : g.Agrees G lo hi) (hlo : lo ≤ first)
    (hhi : first + 4 < hi) (hlast : lo ≤ last) (hlast' : last < hi) :
    LoopIn pp G s o step base first out last where
  union := hagrees.has h.union hlo (Nat.lt_of_le_of_lt (Nat.le_add_right _ _) hhi)
  known := hagrees.has h.known (Nat.le_add_right_of_le hlo) (Nat.lt_of_le_of_lt (by simp) hhi)
  renamed := hagrees.has h.renamed (Nat.le_add_right_of_le hlo) (Nat.lt_of_le_of_lt (by simp) hhi)
  unequal := hagrees.has h.unequal (Nat.le_add_right_of_le hlo) (Nat.lt_of_le_of_lt (by simp) hhi)
  join := hagrees.has h.join (Nat.le_add_right_of_le hlo) hhi
  back := hagrees.has h.back hlast hlast'

/-- Nothing is fed back in a loop but its last operator. -/
theorem LoopIn.feedback {G : Graph Plan} {last id : Nat}
    (h : LoopIn pp G s o step base first out last)
    (hid : first ≤ id ∧ id < first + 5 ∨ id = last) {i : Input} (hi : i ∈ G.inputs id)
    (hf : i.feedback = true) : i.source = last := by
  have hcases : id = first ∨ id = first + 1 ∨ id = first + 2 ∨ id = first + 3 ∨ id = first + 4 ∨
      id = last := by omega
  rcases hcases with rfl | rfl | rfl | rfl | rfl | rfl
  · rw [h.union.2] at hi
    grind
  · rw [h.known.2] at hi
    grind
  · rw [h.renamed.2] at hi
    grind
  · rw [h.unequal.2] at hi
    grind
  · rw [h.join.2] at hi
    grind
  · rw [h.back.2] at hi
    grind

/-- A loop draws the pairs that it reaches. -/
theorem LoopDrawn.placed {base out : OperatorId}
    (h : LoopDrawn src pp R s o d d₁ d₂ d₃ d' step base out) (hpp : pp.ForStore graph)
    (hso : s ≠ o) (hs : s.OlderThan d.nextVar) (ho : o.OlderThan d.nextVar)
    (hR : OnNodes (src.activeTriples graph) R) :
    Placed src True untouched d d' [d₁.size + 1] [Ends (.var s) (.var o) (Reaches R)] := by
  have hsize := h.body.ext.size_le
  have hcopy := h.size_copy
  have hcopySize := h.copy.ext.size_le
  have hdone := h.size_eq
  obtain ⟨n, hn, hstep⟩ := h.fresh
  have hsm : s ≠ step := hstep ▸ hs n hn
  have hmo : step ≠ o := hstep ▸ (ho n hn).symm
  have hrange : ∀ id : Nat, d₁.size ≤ id → id < d'.size → ¬ (d₂.size ≤ id ∧ id < d₃.size) →
      d₁.size ≤ id ∧ id < d₁.size + 5 ∨ id = d₃.size := fun id _ _ _ => by omega
  -- what the finished graph says about the loop and the two copies
  have hloop : ∀ {G}, d'.graph.Agrees G d.size d'.size →
      LoopIn pp G s o step base d₁.size out d₃.size := fun hagrees =>
    h.loop.of_agrees hagrees hsize (by omega) (by omega) (by omega)
  have hbodyIn : ∀ {G}, d'.graph.Agrees G d.size d'.size → d₁.graph.Agrees G d.size d₁.size :=
    fun hagrees => hagrees.of_keeps h.keeps_body (Nat.le_refl _) h.keeps_body.size_le
      (Nat.le_refl _)
      fun _ _ _ => not_false
  have hcopyIn : ∀ {G}, d'.graph.Agrees G d.size d'.size → d₃.graph.Agrees G d₂.size d₃.size :=
    fun hagrees => hagrees.of_keeps h.keeps (by omega) h.keeps.size_le (Nat.le_refl _)
      fun id hid _ hid' => by
        rcases hid' with rfl | rfl
        · exact absurd hid (by omega)
        · exact absurd hid (by omega)
  have hsettled : ∀ {limit G F}, Scene src limit G F → d'.graph.Agrees G d.size d'.size →
      Settles True F base (Ends (.var s) (.var o) R) ∧
        Settles True F out (Ends (.var step) (.var o) R) := fun hscene hagrees =>
    ⟨(List.forall₂_cons.1 (h.body.settles _ _ _ hscene (hbodyIn hagrees))).1,
      (List.forall₂_cons.1 (h.copy.settles _ _ _ hscene (hcopyIn hagrees))).1⟩
  refine ⟨h.grows, fun id hid => ?_, fun limit G F hscene hagrees id hid hid' i hi hf => ?_,
    fun limit G F hscene hagrees => .cons ?_ .nil⟩
  · rw [List.mem_singleton.1 hid]
    have hlt : d₁.size + 1 < d'.size := by omega
    exact ⟨Nat.le_succ_of_le hsize, hlt⟩
  · rcases Nat.lt_or_ge id d₁.size with hlt | hge
    · rw [h.keeps_body.inputs_eq id hlt not_false] at hi
      exact h.body.rests limit G F hscene (hbodyIn hagrees) id hid hlt i hi hf
    by_cases hin : d₂.size ≤ id ∧ id < d₃.size
    · rw [h.keeps.inputs_eq id hin.2 fun hid' => by
        rcases hid' with rfl | rfl
        · exact absurd hin.1 (by omega)
        · exact absurd hin.1 (by omega)] at hi
      exact h.copy.rests limit G F hscene (hcopyIn hagrees) id hin.1 hin.2 i hi hf
    · obtain ⟨hbase, hout⟩ := hsettled hscene hagrees
      rw [h.loop.feedback (hrange id hge hid' hin) hi hf]
      exact ⟨(hloop hagrees).onLoop src limit,
        (hloop hagrees).rests hscene hpp hso hsm hmo hbase hout hR⟩
  · obtain ⟨hbase, hout⟩ := hsettled hscene hagrees
    exact (hloop hagrees).settles hscene hpp hso hsm hmo hbase hout

theorem placed_loop (hpp : pp.ForStore graph) (h : DrawsPairs src graph path R)
    (hR : OnNodes (src.activeTriples graph) R) (hso : s ≠ o) (hd : d.Sound)
    (hs : s.OlderThan d.nextVar) (ho : o.OlderThan d.nextVar)
    (hrun : (pp.loop path s o).runOn d = (.ok out, d')) :
    Placed src True untouched d d' [out] [Ends (.var s) (.var o) (Reaches R)] := by
  obtain ⟨d₁, d₂, d₃, step, base, copy, rfl, hdrawn⟩ := loopDrawn h hd hs ho hrun
  exact hdrawn.placed hpp hso hs ho hR

/-! ## Restricted closures -/

theorem satisfiesAll_iff {equalities : List (Item × Item)} {r : Solution} :
    satisfiesAll equalities r = true ↔
      ∀ e ∈ equalities, ∃ a, r.resolve e.1 = some a ∧ r.resolve e.2 = some a := by
  rw [satisfiesAll, List.all_eq_true]
  refine forall₂_congr fun e _ => ?_
  cases r.resolve e.1 with
  | none => simp
  | some a =>
      cases r.resolve e.2 with
      | none => simp
      | some b =>
          simp only [beq_iff_eq, Option.some.injEq, exists_eq_left']
          exact eq_comm

/-- Equations that say of a pair that two items denote its terms. -/
structure Restricts (equalities : List (Item × Item)) (s' o' : Variable) (s o : Item) : Prop where
  ne : s' ≠ o'
  denotes : ∀ a b, satisfiesAll equalities (.pair s' o' a b) = true →
    (Solution.pair s' o' a b).resolve s = some a ∧ (Solution.pair s' o' a b).resolve o = some b
  complete : ∀ (r : Solution) (a b : Term), r.resolve s = some a → r.resolve o = some b →
    satisfiesAll equalities (.pair s' o' a b) = true

/-- Pairs between two variables that satisfy the equations of two items, restricted to these
items. -/
theorem Restricts.ends {equalities : List (Item × Item)} {s' o' : Variable} {s o : Item}
    (h : Restricts equalities s' o' s o) (r : Solution) :
    Ends s o R r ↔ ∃ full, (Ends (.var s') (.var o') R full ∧ satisfiesAll equalities full = true) ∧
      full.on [s, o] = r := by
  constructor
  · intro hr
    obtain ⟨⟨a, b, ha, hb, hab⟩, hon⟩ := Solution.ends_iff.1 hr
    have hall := h.complete r a b ha hb
    obtain ⟨hs, ho⟩ := h.denotes a b hall
    refine ⟨.pair s' o' a b, ⟨(Solution.ends_pair h.ne).2 hab, hall⟩, ?_⟩
    rw [← hon]
    refine Solution.on_congr (List.forall_mem_cons.2 ⟨hs.trans ha.symm, ?_⟩)
    exact List.forall_mem_singleton.2 (ho.trans hb.symm)
  · rintro ⟨full, ⟨hfull, hall⟩, rfl⟩
    obtain ⟨a, b, hab, rfl⟩ := (Solution.ends_pair_iff h.ne).1 hfull
    obtain ⟨hs, ho⟩ := h.denotes a b hall
    exact Solution.ends_on ⟨a, b, hs, ho, hab⟩

theorem restricts_self {v o' : Variable} (h : v ≠ o') :
    Restricts [(.var o', .var v)] v o' (.var v) (.var v) := by
  refine ⟨h, fun a b hall => ?_, fun r a b ha hb => ?_⟩
  · simp [satisfiesAll_iff, Solution.get?_pair, h] at hall
    simp [Solution.get?_pair, h, hall]
  · obtain rfl := Option.some.inj (ha.symm.trans hb)
    simp [satisfiesAll_iff, Solution.get?_pair, h]

theorem restricts_subject {t : Term} {s' w : Variable} (h : s' ≠ w) :
    Restricts [(.var s', .term t)] s' w (.term t) (.var w) := by
  refine ⟨h, fun a b hall => ?_, fun r a b ha hb => ?_⟩
  · simp [satisfiesAll_iff, Solution.get?_pair, h] at hall
    simp [Solution.get?_pair, hall]
  · obtain rfl := Option.some.inj ha
    simp [satisfiesAll_iff, Solution.get?_pair, h]

theorem restricts_object {u : Term} {v o' : Variable} (h : v ≠ o') :
    Restricts [(.var o', .term u)] v o' (.var v) (.term u) := by
  refine ⟨h, fun a b hall => ?_, fun r a b ha hb => ?_⟩
  · simp [satisfiesAll_iff, Solution.get?_pair] at hall
    simp [Solution.get?_pair, h, hall]
  · obtain rfl := Option.some.inj hb
    simp [satisfiesAll_iff, Solution.get?_pair]

theorem restricts_both {t u : Term} {s' o' : Variable} (h : s' ≠ o') :
    Restricts [(.var s', .term t), (.var o', .term u)] s' o' (.term t) (.term u) := by
  refine ⟨h, fun a b hall => ?_, fun r a b ha hb => ?_⟩
  · simp [satisfiesAll_iff, Solution.get?_pair, h] at hall
    simp [hall]
  · obtain rfl := Option.some.inj ha
    obtain rfl := Option.some.inj hb
    simp [satisfiesAll_iff, Solution.get?_pair, h]

/-! ## Closures -/

theorem PathPlanner.closure_var {v w : Variable} (h : v ≠ w) (n : Nat) :
    pp.closure path n (.var v) (.var w) = pp.loop path v w := by
  cases n with
  | zero => rfl
  | succ n => simp [closure, h]

/-- A closure between two variables, restricted to two items by some equations. -/
def PathPlanner.restricted (pp : PathPlanner) (path : DrawPath) (n : Nat)
    (equalities : List (Item × Item)) (s' o' : Variable) (s o : Item) : Draw OperatorId := do
  let core ← pp.closure path n (.var s') (.var o')
  pp.project (← above core (.ruleFilter equalities)) s o

theorem PathPlanner.closure_self (v : Variable) (n : Nat) :
    pp.closure path (n + 1) (.var v) (.var v) = Draw.freshVar >>= fun o' =>
      pp.restricted path n [(.var o', .var v)] v o' (.var v) (.var v) := by
  simp [closure, restricted, Item.isVar, Item.var?]

theorem PathPlanner.closure_subject (t : Term) (w : Variable) (n : Nat) :
    pp.closure path (n + 1) (.term t) (.var w) = Draw.freshVar >>= fun s' =>
      pp.restricted path n [(.var s', .term t)] s' w (.term t) (.var w) := by
  simp [closure, restricted, Item.isVar, Item.var?]

theorem PathPlanner.closure_object (v : Variable) (u : Term) (n : Nat) :
    pp.closure path (n + 1) (.var v) (.term u) = Draw.freshVar >>= fun o' =>
      pp.restricted path n [(.var o', .term u)] v o' (.var v) (.term u) := by
  simp [closure, restricted, Item.isVar, Item.var?]

theorem PathPlanner.closure_both (t u : Term) (n : Nat) :
    pp.closure path (n + 1) (.term t) (.term u) = Draw.freshVar >>= fun s' =>
      Draw.freshVar >>= fun o' =>
        pp.restricted path n [(.var s', .term t), (.var o', .term u)] s' o' (.term t)
          (.term u) := by
  simp [closure, restricted, Item.isVar, Item.var?]

/-- Equations between two items that hold of rows only if two variables have the values of two other
items, and these are bound if the variables are. -/
structure Confines (equalities : List (Item × Item)) (s' o' : Variable) (s o : Item) : Prop where
  subject : ∀ v, .var v = s → v = s'
  object : ∀ v, .var v = o → v = s' ∨ v = o'
  values : ∀ r, satisfiesAll equalities r = true →
    r.get? s' = r.resolve s ∧ r.get? o' = r.resolve o

/-- What holds of loops between two variables, and of a restriction if it holds of what is
restricted, holds of all closures. -/
theorem PathPlanner.closure_induction {C : Item → Item → Draw OperatorId → Prop}
    (hloop : ∀ v w, C (.var v) (.var w) (pp.loop path v w))
    (hrestricted : ∀ equalities s' o' s o draw, Confines equalities s' o' s o →
      C (.var s') (.var o') draw → C s o (do
        let core ← draw
        pp.project (← above core (.ruleFilter equalities)) s o))
    (hfresh : ∀ s o (f : Variable → Draw OperatorId), (∀ v, C s o (f v)) →
      C s o (Draw.freshVar >>= f)) (rounds : Nat) (s o : Item)
    (hvars : rounds = 0 → s.isVar = true ∧ o.isVar = true) :
    C s o (pp.closure path rounds s o) := by
  induction rounds generalizing s o with
  | zero =>
      obtain ⟨hs, ho⟩ := hvars rfl
      cases s with
      | term t => cases hs
      | var v =>
          cases o with
          | term t => cases ho
          | var w => exact hloop v w
  | succ rounds ih =>
      have hcore {equalities : List (Item × Item)} {s' o' : Variable} {s o : Item}
          (h : Confines equalities s' o' s o) :
          C s o (pp.restricted path rounds equalities s' o' s o) :=
        hrestricted _ _ _ _ _ _ h (ih _ _ fun _ => ⟨rfl, rfl⟩)
      match s, o with
      | .var v, .var w =>
          by_cases h : v = w
          · subst h
            rw [closure_self]
            refine hfresh _ _ _ fun o' => hcore ⟨fun _ => Item.var.inj, fun _ hu =>
              .inl (Item.var.inj hu), fun r hall => ⟨rfl, ?_⟩⟩
            obtain ⟨a, ha, hv⟩ := satisfiesAll_iff.1 hall _ (List.mem_singleton_self _)
            exact ha.trans hv.symm
          · rw [closure_var h]
            exact hloop v w
      | .term t, .var w =>
          rw [closure_subject]
          refine hfresh _ _ _ fun s' => hcore ⟨nofun, fun _ hu => .inr (Item.var.inj hu),
            fun r hall => ⟨?_, rfl⟩⟩
          obtain ⟨a, ha, ht⟩ := satisfiesAll_iff.1 hall _ (List.mem_singleton_self _)
          exact ha.trans ht.symm
      | .var v, .term u =>
          rw [closure_object]
          refine hfresh _ _ _ fun o' => hcore ⟨fun _ => Item.var.inj, nofun,
            fun r hall => ⟨rfl, ?_⟩⟩
          obtain ⟨a, ha, hu⟩ := satisfiesAll_iff.1 hall _ (List.mem_singleton_self _)
          exact ha.trans hu.symm
      | .term t, .term u =>
          rw [closure_both]
          refine hfresh _ _ _ fun s' => hfresh _ _ _ fun o' => hcore ⟨nofun, nofun,
            fun r hall => ?_⟩
          obtain ⟨a, ha, ht⟩ := satisfiesAll_iff.1 hall _ List.mem_cons_self
          obtain ⟨b, hb, hu⟩ := satisfiesAll_iff.1 hall _
            (List.mem_cons_of_mem _ (List.mem_singleton_self _))
          exact ⟨ha.trans ht.symm, hb.trans hu.symm⟩

section

variable (hpp : pp.ForStore graph) (h : DrawsPairs src graph path R)
  (hR : OnNodes (src.activeTriples graph) R)

include hpp h hR

theorem placed_restricted {equalities : List (Item × Item)} {s' o' : Variable} {s o : Item}
    {n : Nat}
    (hrestricts : Restricts equalities s' o' s o) (hd : d.Sound) (hs : s'.OlderThan d.nextVar)
    (ho : o'.OlderThan d.nextVar)
    (hrun : (pp.restricted path n equalities s' o' s o).runOn d = (.ok out, d')) :
    Placed src True untouched d d' [out] [Ends s o (Reaches R)] := by
  rw [PathPlanner.restricted, PathPlanner.closure_var hrestricts.ne] at hrun
  obtain ⟨core, d₁, hcore, hrun⟩ := Edit.runOn_bind_eq_ok.1 hrun
  obtain ⟨filtered, d₂, hfiltered, hrun⟩ := Edit.runOn_bind_eq_ok.1 hrun
  have hloop := placed_loop hpp h hR hrestricts.ne hd hs ho hcore
  have hfilter := hloop.above (T := fun r => Ends (.var s') (.var o') (Reaches R) r ∧
      satisfiesAll equalities r = true) hfiltered (Operator.maps_ruleFilter equalities) fun r =>
    ⟨fun ⟨hr, hall⟩ => ⟨r, hr, rfl, hall⟩, by
      rintro ⟨_, hr, rfl, hall⟩
      exact ⟨hr, hall⟩⟩
  exact hfilter.project hpp hrun hrestricts.ends

/-- The pairs that are reached in what a path draws. Variables that are handed out for it are
different from each other and from the items that it is drawn between. -/
theorem DrawsPairs.oneOrMore : DrawsPairs src graph (pp.oneOrMore path) (Reaches R) := by
  intro s o d d' out hd hs ho hrun
  unfold PathPlanner.oneOrMore at hrun
  cases s with
  | var v =>
      cases o with
      | var w =>
          by_cases hvw : v = w
          · subst hvw
            rw [PathPlanner.closure_self] at hrun
            obtain ⟨o', d₁, hfresh, hrun⟩ := Edit.runOn_bind_eq_ok.1 hrun
            obtain ⟨rfl, hd₁, hnext, -, hplaced⟩ := freshVar_eq_ok src True hd hfresh
            exact hplaced (placed_restricted hpp h hR
              (restricts_self (hs _ (Nat.le_refl _))) hd₁ (hs.mono (by omega))
              (Variable.olderThan_interim (by omega)) hrun)
          · rw [PathPlanner.closure_var hvw] at hrun
            exact placed_loop hpp h hR hvw hd hs ho hrun
      | term u =>
          rw [PathPlanner.closure_object] at hrun
          obtain ⟨o', d₁, hfresh, hrun⟩ := Edit.runOn_bind_eq_ok.1 hrun
          obtain ⟨rfl, hd₁, hnext, -, hplaced⟩ := freshVar_eq_ok src True hd hfresh
          exact hplaced (placed_restricted hpp h hR
            (restricts_object (hs _ (Nat.le_refl _))) hd₁ (hs.mono (by omega))
            (Variable.olderThan_interim (by omega)) hrun)
  | term t =>
      cases o with
      | var w =>
          rw [PathPlanner.closure_subject] at hrun
          obtain ⟨s', d₁, hfresh, hrun⟩ := Edit.runOn_bind_eq_ok.1 hrun
          obtain ⟨rfl, hd₁, hnext, -, hplaced⟩ := freshVar_eq_ok src True hd hfresh
          exact hplaced (placed_restricted hpp h hR
            (restricts_subject (ho _ (Nat.le_refl _)).symm) hd₁
            (Variable.olderThan_interim (by omega)) (ho.mono (by omega)) hrun)
      | term u =>
          rw [PathPlanner.closure_both] at hrun
          obtain ⟨s', d₁, hfresh, hrun⟩ := Edit.runOn_bind_eq_ok.1 hrun
          obtain ⟨rfl, hd₁, hnext, -, hplaced⟩ := freshVar_eq_ok src True hd hfresh
          obtain ⟨o', d₂, hfresh', hrun⟩ := Edit.runOn_bind_eq_ok.1 hrun
          obtain ⟨rfl, hd₂, hnext', -, hplaced'⟩ := freshVar_eq_ok src True hd₁ hfresh'
          have hne : Variable.interim d.nextVar ≠ .interim d₁.nextVar := fun he => by
            have := Variable.interim_injective he
            omega
          exact hplaced (hplaced' (placed_restricted hpp h hR (restricts_both hne) hd₂
            (Variable.olderThan_interim (by omega)) (Variable.olderThan_interim (by omega)) hrun))

end

end QuadAlgebra
