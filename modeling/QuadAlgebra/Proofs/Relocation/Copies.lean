import QuadAlgebra.Proofs.Relocation.Sites
import QuadAlgebra.Proofs.Semantics.Flow

/-!
# Evaluation inside larger graphs

A graph with one result is copied into a larger one if all that leads to the result is found there
again, before the operator that takes the place of the result (`Site.Copies`). Copies evaluate like
their originals: round by round, the operators of a copy have the same rows, so that what arrives
at the target of the larger graph in the end is what the result of the smaller one shows
(`Site.Copies.finalRows`).
-/

namespace QuadAlgebra

/-! ## Numbers in operators -/

section Numbers

variable {α β : Type} {id id' : OperatorId}

/-- Whatever one computation returns, the other one returns too. -/
def OkLike (x y : Except Error α) : Prop := ∀ a, x = .ok a → y = .ok a

theorem OkLike.refl (x : Except Error α) : OkLike x x := fun _ h => h

theorem OkLike.bind {x y : Except Error α} {f f' : α → Except Error β}
    (h : OkLike x y) (hf : ∀ a, OkLike (f a) (f' a)) :
    OkLike (x >>= f) (y >>= f') := by
  intro b hb
  cases x with
  | error e => cases hb
  | ok a =>
      rw [h a rfl]
      exact hf a b hb

theorem OkLike.map {x y : Except Error α} (h : OkLike x y) (f : α → β) :
    OkLike (x.map f) (y.map f) := by
  intro b hb
  cases x with
  | error e => cases hb
  | ok a =>
      rw [h a rfl]
      exact hb

theorem OkLike.mapM {l : List α} {f f' : α → Except Error β}
    (h : ∀ a, OkLike (f a) (f' a)) : OkLike (l.mapM f) (l.mapM f') := by
  induction l with
  | nil => exact .refl _
  | cons a rest ih =>
      rw [List.mapM_cons, List.mapM_cons]
      exact (h a).bind fun b => ih.bind fun bs => .refl _

/-- The number of an operator shows only in what is reported about rows of a wrong kind. -/
theorem expectRows_okLike (shape : RowShape) (read : Row → Option α) (rows : List Row) :
    OkLike (expectRows id shape read rows) (expectRows id' shape read rows) :=
  OkLike.mapM fun row a h => by
    cases hread : read row with
    | none => simp [hread] at h
    | some b => simpa [hread] using h

theorem expectSolutions_okLike (rows : List Row) :
    OkLike (expectSolutions id rows) (expectSolutions id' rows) :=
  expectRows_okLike _ _ _

theorem Operator.emit_okLike (src : Source) (op : Operator (Except Error (List Solution)))
    (operands : Operands) :
    OkLike (op.emit src id operands) (op.emit src id' operands) := by
  have hsolutions (f : List Solution → List Row) :
      OkLike ((expectSolutions id operands.rows).map f)
        ((expectSolutions id' operands.rows).map f) := (expectSolutions_okLike _).map f
  have hpairwise (f : List Solution → List Solution → List Solution) : OkLike (do
        let left ← expectSolutions id (operands.on 0)
        let right ← expectSolutions id (operands.except 0)
        return (f left right).map Row.solution) (do
        let left ← expectSolutions id' (operands.on 0)
        let right ← expectSolutions id' (operands.except 0)
        return (f left right).map Row.solution) :=
    (expectSolutions_okLike _).bind fun _ => (expectSolutions_okLike _).bind fun _ => .refl _
  have hquads (f : Quad → Action) : OkLike
      ((expectRows id .quads Row.quad? operands.rows).map fun qs => qs.map (Row.action ∘ f))
      ((expectRows id' .quads Row.quad? operands.rows).map fun qs => qs.map (Row.action ∘ f)) :=
    (expectRows_okLike _ _ _).map _
  cases op with
  | root | result | union | window | limit | offset | distinct | indexDistinct | command
  | service => exact .refl _
  | scan | probe | ruleFilter | projection | bind | replaceVar | sort | group | construct | generate
  | constructAtom | describe => exact hsolutions _
  | join =>
      exact (OkLike.mapM fun o : Nat × List Row => expectSolutions_okLike o.2).bind
        fun _ => .refl _
  | optional | minus => exact hpairwise _
  | filter f => exact (expectSolutions_okLike _).bind fun _ => .refl _
  | matchTriple | matchAtom => exact (expectRows_okLike _ _ _).bind fun _ => .refl _
  | insert | delete => exact hquads _

end Numbers

/-! ## Deliveries and rounds -/

namespace Graph

section Deliveries

variable {γ δ : Type} {g : Graph γ} {h : Graph δ} {x y : OperatorId}

/-- What arrives at an operator depends on its edges only. -/
theorem deliver_of_inputs {f : Input → Input} (hf : ∀ i, (f i).operand = i.operand)
    (hinputs : h.inputs y = (g.inputs x).map f) (read : Input → List Row) :
    h.deliver read y = g.deliver (fun i => read (f i)) x := by
  have hoperands : (h.inputs y).map Input.operand = (g.inputs x).map Input.operand := by
    rw [hinputs, List.map_map]
    exact List.map_congr_left fun i _ => hf i
  simp only [deliver, operandGroups, hoperands, List.map_map]
  refine List.map_congr_left fun k _ => Prod.ext rfl ?_
  have hsame : (fun i : Input => i.operand == k) ∘ f = fun i => i.operand == k :=
    funext fun i => congrArg (· == k) (hf i)
  simp only [Function.comp_apply, hinputs, List.filter_map, List.flatMap_map, hsame]

end Deliveries

end Graph

/-! ## Copies -/

namespace Site

variable (s : Site)

/-- All that leads to the result of a graph is found in a larger graph, before the target. -/
structure Copies {γ : Type} (g h : Graph γ) : Prop where
  linked : g.Linked
  linked' : h.Linked
  contains : ∀ id, h.contains (s.place id) = g.contains id
  operator? : ∀ id : Nat, id ≠ 1 → h.operator? (s.place id) = g.operator? id
  inputs : ∀ id : Nat, h.inputs (s.place id) = (g.inputs id).map s.placeInput
  /-- The result is read by nothing and reads its producers forward. -/
  result : ∃ form, g.operator? 1 = some (.result form)
  unread : g.succeeding 1 = []
  forward : ∀ i ∈ g.inputs 1, i.feedback = false
  /-- Outside of the copy, edges lead to smaller numbers and not back into the copy. -/
  outside : ∀ id, (∀ k, id ≠ s.place k) →
    ∀ e ∈ h.succeeding id, e.target < id ∧ ∀ k, e.target ≠ s.place k

end Site

/-! ## Loops of copies -/

namespace Graph

variable {γ : Type} {g : Graph γ} {x y : OperatorId}

theorem Linked.leads_iff (hg : g.Linked) : g.Leads x y ↔ ∃ i ∈ g.inputs y, i.source = x := by
  refine mem_consumers.trans ⟨fun ⟨_, e, he, hy⟩ => ?_, fun ⟨i, hi, hx⟩ => ?_⟩
  · exact ⟨⟨x, e.operand, e.feedback⟩, hg.mem_inputs.2 (hy ▸ he), rfl⟩
  · have he := hx ▸ hg.mem_inputs.1 hi
    exact ⟨hg.contains_target he, _, he, rfl⟩

theorem Linked.mem_forward_iff (hg : g.Linked) :
    y ∈ g.forward x ↔ ∃ i ∈ g.inputs y, i.source = x ∧ i.feedback = false := by
  refine mem_forward.trans ⟨fun ⟨_, e, he, hy, hf⟩ => ?_, fun ⟨i, hi, hx, hf⟩ => ?_⟩
  · exact ⟨⟨x, e.operand, e.feedback⟩, hg.mem_inputs.2 (hy ▸ he), rfl, hf⟩
  · have he := hx ▸ hg.mem_inputs.1 hi
    exact ⟨hg.contains_target he, _, he, rfl, hf⟩

end Graph

namespace Site.Copies

section

variable {s : Site} {γ : Type} {g h : Graph γ} (hc : s.Copies g h) {id : Nat}

include hc

theorem leads_place {x : Nat} : h.Leads x (s.place id) ↔ ∃ k, x = s.place k ∧ g.Leads k id := by
  simp only [hc.linked'.leads_iff, hc.linked.leads_iff, hc.inputs]
  constructor
  · rintro ⟨i, hi, rfl⟩
    obtain ⟨j, hj, rfl⟩ := List.mem_map.1 hi
    exact ⟨j.source, rfl, j, hj, rfl⟩
  · rintro ⟨k, rfl, j, hj, rfl⟩
    exact ⟨s.placeInput j, List.mem_map_of_mem hj, rfl⟩

theorem transGen_place {x : Nat} : Relation.TransGen h.Leads x (s.place id) ↔
    ∃ k, x = s.place k ∧ Relation.TransGen g.Leads k id := by
  constructor
  · intro hx
    induction hx using Relation.TransGen.head_induction_on with
    | single hx =>
        obtain ⟨k, rfl, hk⟩ := hc.leads_place.1 hx
        exact ⟨k, rfl, .single hk⟩
    | head hx _ ih =>
        obtain ⟨k, rfl, hk⟩ := ih
        obtain ⟨j, rfl, hj⟩ := hc.leads_place.1 hx
        exact ⟨j, rfl, .head hj hk⟩
  · rintro ⟨k, rfl, hk⟩
    exact hk.lift s.place fun a b hab => hc.leads_place.2 ⟨a, rfl, hab⟩

theorem onLoop_place : h.OnLoop (s.place id) ↔ g.OnLoop id := by
  refine hc.transGen_place.trans ⟨fun ⟨k, hk, hloop⟩ => ?_, fun hloop => ⟨id, rfl, hloop⟩⟩
  obtain rfl := place_injective hk
  exact hloop

/-- Loops of the larger graph lie inside of the copy. -/
theorem exists_place_of_onLoop {x : Nat} (hloop : h.OnLoop x) : ∃ k, x = s.place k := by
  by_contra hnone
  have hout : ∀ k, x ≠ s.place k := fun k hk => hnone ⟨k, hk⟩
  have hsmaller {y : Nat} (hy : Relation.TransGen h.Leads x y) : y < x ∧ ∀ k, y ≠ s.place k := by
    induction hy with
    | single hy =>
        obtain ⟨-, e, he, rfl⟩ := Graph.mem_consumers.1 hy
        exact hc.outside x hout e he
    | tail _ hy ih =>
        obtain ⟨-, e, he, rfl⟩ := Graph.mem_consumers.1 hy
        obtain ⟨hlt, hplace⟩ := hc.outside _ ih.2 e he
        exact ⟨Nat.lt_trans hlt ih.1, hplace⟩
  exact Nat.lt_irrefl x (hsmaller hloop).1

theorem result_not_onLoop : ¬ g.OnLoop 1 := by
  intro hloop
  obtain ⟨y, hy, -⟩ := Relation.TransGen.head'_iff.1 hloop
  obtain ⟨-, e, he, -⟩ := Graph.mem_consumers.1 hy
  rw [hc.unread] at he
  cases he

theorem loopMembers_contains :
    h.loopMembers.contains (s.place id) = g.loopMembers.contains id := by
  rw [Bool.eq_iff_iff, List.contains_iff_mem, List.contains_iff_mem, Graph.mem_loopMembers,
    Graph.mem_loopMembers, hc.onLoop_place]

theorem loopMembers_isEmpty : h.loopMembers.isEmpty = g.loopMembers.isEmpty := by
  rw [Bool.eq_iff_iff, List.isEmpty_iff, List.isEmpty_iff]
  constructor
  · intro hnone
    refine List.eq_nil_iff_forall_not_mem.2 fun id hid => ?_
    have hmem := Graph.mem_loopMembers.2 (hc.onLoop_place.2 (Graph.mem_loopMembers.1 hid))
    rw [hnone] at hmem
    cases hmem
  · intro hnone
    refine List.eq_nil_iff_forall_not_mem.2 fun id hid => ?_
    have hloop := Graph.mem_loopMembers.1 hid
    obtain ⟨k, rfl⟩ := hc.exists_place_of_onLoop hloop
    have hmem := Graph.mem_loopMembers.2 (hc.onLoop_place.1 hloop)
    rw [hnone] at hmem
    cases hmem

theorem mem_ids : s.place id ∈ h.ids ↔ id ∈ g.ids := by
  rw [Graph.mem_ids, Graph.mem_ids, hc.contains]

/-- If the larger graph has an order, so has the smaller one. -/
theorem exists_topologicalOrder {order : List OperatorId} (horder : h.IsTopological order) :
    ∃ order', g.topologicalOrder = .ok order' := by
  obtain ⟨rank, hrank⟩ := horder.exists_rank
  have hplaced : ∀ x, ∀ y ∈ g.forward x, rank (s.place x) < rank (s.place y) := by
    intro x y hy
    obtain ⟨i, hi, rfl, hf⟩ := hc.linked.mem_forward_iff.1 hy
    refine hrank _ (hc.mem_ids.2 (Graph.source_mem_ids hi)) _
      (hc.linked'.mem_forward_iff.2 ⟨s.placeInput i, ?_, rfl, hf⟩)
    rw [hc.inputs]
    exact List.mem_map_of_mem hi
  exact Graph.topologicalOrder_of_rank hplaced

end

/-! ## Rounds of copies -/

variable {s : Site} {g h : Graph Outcome} (hc : s.Copies g h) {src : Source}
  {order order' : List OperatorId} {previous current previous' : Assignment}

/-- The rows that arrive at the target. -/
def arriving (s : Site) (g : Graph Outcome) (b : Assignment) : List Row :=
  (g.deliver (fun i => b.rows (s.place i.source)) 1).rows

/-- What the smaller graph has if the larger one has the given rows. -/
def copied (s : Site) (g : Graph Outcome) (order' : List OperatorId) (b : Assignment) :
    Assignment :=
  order'.reverse.map fun id => (id, if id = 1 then arriving s g b else b.rows (s.place id))

theorem rows_copied (horder' : g.IsTopological order') {id : Nat} (hid : id ∈ g.ids) (hne : id ≠ 1)
    (b : Assignment) : (copied s g order' b).rows id = b.rows (s.place id) := by
  have hrows := Graph.rows_map (fun id => if id = 1 then arriving s g b else b.rows (s.place id))
    (List.mem_reverse.2 ((horder'.mem_iff id).2 hid))
  exact hrows.trans (if_neg hne)

include hc

theorem source_ne {id : Nat} {i : Input} (hi : i ∈ g.inputs id) : i.source ≠ 1 := by
  intro hone
  have he := hc.linked.mem_inputs.1 hi
  rw [hone, hc.unread] at he
  cases he

theorem respond_place {id : Nat} (hne : id ≠ 1) {operands : Operands} {rows : List Row}
    (hrows : h.respond src operands (s.place id) = .ok rows) :
    g.respond src operands id = .ok rows := by
  simp only [Graph.respond, Graph.operator, hc.operator? id hne] at hrows ⊢
  cases hop : g.operator? id with
  | none => simp [hop, bind, Except.bind] at hrows
  | some op =>
      rw [hop] at hrows
      exact Operator.emit_okLike src _ operands rows hrows

/-- A round of the larger graph is a round of the smaller one. -/
theorem round (horder : h.IsTopological order) (horder' : g.IsTopological order')
    (hprevious : ∀ id ∈ g.ids, id ≠ 1 → previous'.rows id = previous.rows (s.place id))
    (hround : h.round src h.loopMembers order previous = .ok current) :
    g.round src g.loopMembers order' previous' = .ok (copied s g order' current) := by
  refine Graph.round_eq_ok horder' fun id hid => ?_
  have hread : (g.deliver (fun i => if i.feedback then previous'.rows i.source else
        if i.source = 1 then arriving s g current else current.rows (s.place i.source)) id) =
      g.deliver (fun i => if i.feedback then previous.rows (s.place i.source) else
        current.rows (s.place i.source)) id := by
    refine Graph.deliver_congr fun i hi => ?_
    rw [hprevious _ (Graph.source_mem_ids hi) (hc.source_ne hi), if_neg (hc.source_ne hi)]
  rw [hread]
  by_cases hone : id = 1
  · subst hone
    obtain ⟨form, hform⟩ := hc.result
    refine ⟨arriving s g current, ?_, ?_⟩
    · have harriving : g.deliver (fun i => if i.feedback then previous.rows (s.place i.source) else
          current.rows (s.place i.source)) 1 =
          g.deliver (fun i => current.rows (s.place i.source)) 1 :=
        Graph.deliver_congr fun i hi => by rw [hc.forward i hi]; rfl
      rw [harriving]
      simp only [Graph.respond, Graph.operator, hform]
      rfl
    · rw [if_pos rfl, if_neg]
      exact fun hmem => hc.result_not_onLoop
        (Graph.mem_loopMembers.1 (List.contains_iff_mem.1 hmem))
  · obtain ⟨emitted, hemitted, hrows⟩ := Graph.emitAt_eq_ok_iff.1
      ((Graph.round_spec horder hround).2 _ (hc.mem_ids.2 hid))
    refine ⟨emitted, hc.respond_place hone ?_, ?_⟩
    · rw [Graph.operandRows_eq,
        Graph.deliver_of_inputs (f := s.placeInput) (fun _ => rfl) (hc.inputs id)] at hemitted
      rw [← hemitted]
      refine congrArg (h.respond src · _) (Graph.deliver_congr fun i _ => ?_)
      cases hf : i.feedback <;> simp [placeInput, hf]
    · rw [if_neg hone, hrows, hc.loopMembers_contains]

/-- Rounds of the larger graph are rounds of the smaller one, which may come to rest earlier. -/
theorem rounds (horder : h.IsTopological order) (horder' : g.IsTopological order')
    {limit left before n : Nat} (before' : Nat)
    (hprevious : ∀ id ∈ g.ids, id ≠ 1 → previous'.rows id = previous.rows (s.place id))
    (hshape : previous = [] ∨ previous' = copied s g order' previous)
    (hrounds : h.rounds src h.loopMembers order limit left before previous = .ok (current, n)) :
    ∃ m, g.rounds src g.loopMembers order' limit left before' previous' =
      .ok (copied s g order' current, m) := by
  induction left generalizing before before' previous previous' with
  | zero => cases hrounds
  | succ left ih =>
      rw [Graph.rounds] at hrounds ⊢
      cases hround : h.round src h.loopMembers order previous with
      | error e => simp [hround, bind, Except.bind] at hrounds
      | ok next =>
          have hround' := hc.round horder horder' hprevious hround
          simp only [hround, bind, Except.bind, pure, Except.pure] at hrounds
          simp only [hround', bind, Except.bind, pure, Except.pure]
          have hnext : ∀ id ∈ g.ids, id ≠ 1 →
              (copied s g order' next).rows id = next.rows (s.place id) :=
            fun id hid hne => rows_copied horder' hid hne next
          split at hrounds
          · next hstop =>
            cases hrounds
            rw [if_pos]
            · exact ⟨_, rfl⟩
            · rw [Bool.or_eq_true, beq_iff_eq] at hstop ⊢
              rw [← hc.loopMembers_isEmpty]
              refine hstop.imp id fun hsame => ?_
              subst hsame
              -- a round of a graph with operators is not empty
              refine (hshape.resolve_left fun hnil => ?_).symm
              have htarget : s.place 1 ∈ h.ids := hc.mem_ids.2 (by
                obtain ⟨form, hform⟩ := hc.result
                exact Graph.mem_ids_of_operator? hform)
              have hassigned := ((Graph.round_spec horder hround).1 _).2 htarget
              rw [hnil] at hassigned
              cases hassigned
          · next hgo =>
            obtain ⟨m, hm⟩ := ih (before' + 1) hnext (.inr rfl) hrounds
            split
            · next hstop =>
              rw [Bool.or_eq_true, beq_iff_eq, ← hc.loopMembers_isEmpty] at hstop
              have hrest := hstop.resolve_left fun hnone => hgo (by rw [hnone, Bool.true_or])
              -- the smaller graph is at rest, so all its later rounds are the same
              rw [← hrest] at hround'
              cases left with
              | zero => cases hm
              | succ left =>
                  rw [Graph.rounds, hround'] at hm
                  simp only [bind, Except.bind, pure, Except.pure, beq_self_eq_true, Bool.or_true,
                    if_true] at hm
                  obtain ⟨hsame, -⟩ := Prod.mk.inj (Except.ok.inj hm)
                  exact ⟨before', by rw [hsame]⟩
            · exact ⟨m, hm⟩

/-- The smaller graph comes to rest if the larger one does, and its result shows what arrives at
the target of the larger one. -/
theorem finalRows {limit n : Nat} (hfinal : h.finalRows src limit = .ok (current, n)) :
    ∃ rows m, g.finalRows src limit = .ok (rows, m) ∧ rows.rows 1 = arriving s g current := by
  rw [Graph.finalRows] at hfinal
  cases horder : h.topologicalOrder with
  | error e => simp [horder, bind, Except.bind] at hfinal
  | ok order =>
      simp only [horder, bind, Except.bind] at hfinal
      have hspec := Graph.topologicalOrder_spec horder
      obtain ⟨order', horder'⟩ := hc.exists_topologicalOrder hspec
      have hspec' := Graph.topologicalOrder_spec horder'
      have hnothing : ∀ id ∈ g.ids, id ≠ 1 →
          Assignment.rows [] id = Assignment.rows [] (s.place id) := fun _ _ _ => rfl
      obtain ⟨m, hm⟩ := hc.rounds hspec hspec' 0 hnothing (.inl rfl) hfinal
      refine ⟨copied s g order' current, m, ?_, ?_⟩
      · rw [Graph.finalRows, horder']
        exact hm
      · have hone : 1 ∈ g.ids := by
          obtain ⟨form, hform⟩ := hc.result
          exact Graph.mem_ids_of_operator? hform
        exact (Graph.rows_map _ (List.mem_reverse.2 ((hspec'.mem_iff 1).2 hone))).trans
          (if_pos rfl)

end Site.Copies

end QuadAlgebra
