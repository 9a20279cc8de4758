import QuadAlgebra.Planning.Solutions
import QuadAlgebra.Proofs.Planning.Growth
import QuadAlgebra.Proofs.Semantics.Emission

/-!
# Operands that have been fed

A drawing feeds an operand with some bag of solutions: it adds one input to the operand, and in
every graph that has the new operators of the drawing, the producer of that input has those
solutions after the first round (`Draws`). Sources do this (`draws_source`), and so does an operator
on top of drawings that feed its own operands (`Fed.over`).

Only forward edges are added here, so one round is all there is.
-/

namespace QuadAlgebra

/-- A cursor whose operand comes after all operands that have been fed. -/
structure Cursor.Ready (c : Cursor) (d : Draft) : Prop where
  sound : d.Sound
  target_lt : c.target < d.size
  target_ne : c.target ≠ Graph.root
  operand_gt : ∀ i ∈ d.graph.inputs c.target, i.operand < c.operand

/-- A draft in which operands of an operator, from the given one on, have been fed with bags of
solutions. -/
structure Fed (src : Source) (limit : Nat) (target : OperatorId) (first : Nat) (d d' : Draft)
    (lists : List (List Solution)) : Prop where
  ext : d.Extends d' (· = target)
  tame : ∀ id, d.size ≤ id → id < d'.size →
    ∃ op, d'.graph.operator? id = some op ∧ op.IsTame src limit ∧ op.kind ≠ .result
  forward : ∀ id, d.size ≤ id → ∀ i ∈ d'.graph.inputs id, i.feedback = false
  feeds : ∃ producers : List OperatorId, producers.length = lists.length ∧
    d'.graph.inputs target = d.graph.inputs target ++
      (producers.zipIdx first).map (fun p => ⟨p.1, p.2, false⟩) ∧
    ∀ G F, Scene src limit G F → (∀ id, ¬ (Plan.opened ⟨G⟩ src limit).OnLoop id) →
      d'.graph.Agrees G d.size d'.size →
        List.Forall₂ (fun s rows => (F 1 s).Perm rows) producers lists

/-- A drawing that feeds whatever operand it is given with a bag of solutions. -/
def Draws (src : Source) (limit : Nat) (draw : DrawInto) (rows : List Solution) : Prop :=
  ∀ (c : Cursor) (d d' : Draft), c.Ready d → (draw c).runOn d = (.ok (), d') →
    Fed src limit c.target c.operand d d' [rows]

/-- From bags on its operands an operator emits a bag. -/
def Operator.Yields (src : Source) (limit : Nat) (op : Operator Plan)
    (lists : List (List Solution)) (rows : List Solution) : Prop :=
  ∀ (id : OperatorId) (found : List (List Solution)), List.Forall₂ List.Perm found lists →
    ∃ emitted : List Solution, (op.opened src limit).emit src id
      (solutionOperands (found.zipIdx.map Prod.swap)) = .ok (emitted.map .solution) ∧
        emitted.Perm rows

variable {src : Source} {limit : Nat} {c c' : Cursor} {d d₁ d' : Draft} {target : OperatorId}
  {first : Nat} {op : Operator Plan} {rows : List Solution} {lists : List (List Solution)}

theorem Draws.perm {draw : DrawInto} {rows' : List Solution} (h : Draws src limit draw rows)
    (hperm : rows.Perm rows') : Draws src limit draw rows' := by
  intro c d d' hc hrun
  obtain ⟨hext, htame, hforward, producers, hlen, hin, hrows⟩ := h c d d' hc hrun
  refine ⟨hext, htame, hforward, producers, hlen, hin, fun G F hscene hloops hagrees => ?_⟩
  have hlist := hrows G F hscene hloops hagrees
  cases hlist with
  | cons hs hrest =>
      cases hrest
      exact .cons (hs.trans hperm) .nil

/-! ## Several operands -/

theorem Fed.nil (h : d.Sound) : Fed src limit target first d d [] where
  ext := .refl h
  tame id hid hid' := absurd hid (Nat.not_le.2 hid')
  forward id hid i hi := by
    rw [h.inputs_eq_nil hid] at hi
    exact absurd hi List.not_mem_nil
  feeds := ⟨[], rfl, by simp, fun _ _ _ _ _ => .nil⟩

theorem Fed.ready (h : Fed src limit target first d d' [rows])
    (hc : (Cursor.mk target first).Ready d) :
    (Cursor.mk target (first + 1)).Ready d' where
  sound := h.ext.sound
  target_lt := Nat.lt_of_lt_of_le hc.target_lt h.ext.size_le
  target_ne := hc.target_ne
  operand_gt i hi := by
    obtain ⟨producers, hlen, hin, -⟩ := h.feeds
    obtain ⟨s, rfl⟩ := List.length_eq_one_iff.1 hlen
    rw [hin] at hi
    rcases List.mem_append.1 hi with hi | hi
    · exact Nat.lt_succ_of_lt (hc.operand_gt i hi)
    · obtain rfl : i = ⟨s, first, false⟩ := by simpa using hi
      exact Nat.lt_succ_self first

theorem Fed.cons (hlt : target < d.size) (h : Fed src limit target first d d₁ [rows])
    (h' : Fed src limit target (first + 1) d₁ d' lists) :
    Fed src limit target first d d' (rows :: lists) where
  ext := h.ext.trans h'.ext fun _ _ he => he
  tame id hid hid' := by
    rcases Nat.lt_or_ge id d₁.size with hlt | hge
    · obtain ⟨op, hop, htame⟩ := h.tame id hid hlt
      exact ⟨op, by rw [h'.ext.operator?_eq id hlt, hop], htame⟩
    · exact h'.tame id hge hid'
  forward id hid i hi := by
    have hne : id ≠ target := fun he => absurd (he ▸ hid) (Nat.not_le.2 hlt)
    rcases Nat.lt_or_ge id d₁.size with hlt | hge
    · exact h.forward id hid i (by rwa [h'.ext.inputs_eq id hlt hne] at hi)
    · exact h'.forward id hge i hi
  feeds := by
    obtain ⟨producers, hlen, hin, hrows⟩ := h.feeds
    obtain ⟨s, rfl⟩ := List.length_eq_one_iff.1 hlen
    obtain ⟨producers', hlen', hin', hrows'⟩ := h'.feeds
    refine ⟨s :: producers', by simp [hlen'], ?_, fun G F hscene hloops hagrees => ?_⟩
    · rw [hin', hin, List.append_assoc]
      simp [List.zipIdx_cons]
    · have hfirst := hrows G F hscene hloops (hagrees.of_keeps h'.ext.toKeeps (Nat.le_refl _)
        h'.ext.size_le (Nat.le_refl _)
        fun id hid _ he => absurd (he ▸ hid) (Nat.not_le.2 hlt))
      cases hfirst with
      | cons hs _ =>
          refine .cons hs (hrows' G F hscene hloops fun id hid hid' => ?_)
          exact hagrees id (Nat.le_trans h.ext.size_le hid) hid'

/-- Drawings that feed one operand after the other. -/
theorem fed_forM {draws : List DrawInto} (hdraws : List.Forall₂ (Draws src limit) draws lists)
    (hc : (Cursor.mk target first).Ready d)
    (h : ((draws.zipIdx first).forM fun p => p.1 ⟨target, p.2⟩).runOn d = (.ok (), d')) :
    Fed src limit target first d d' lists := by
  induction hdraws generalizing d first with
  | nil =>
      obtain ⟨-, rfl⟩ := Prod.mk.inj h
      exact .nil hc.sound
  | @cons draw rows draws lists hdraw hrest ih =>
      rw [List.zipIdx_cons, List.forM_eq_forM, List.forM_cons, Edit.runOn_bind_eq_ok] at h
      obtain ⟨⟨⟩, d₁, hrun, h⟩ := h
      have hfed := hdraw ⟨target, first⟩ d d₁ hc hrun
      exact .cons hc.target_lt hfed (ih (hfed.ready hc) h)

/-! ## One operator more -/

/-- A draft with one operator more, which feeds the operand at a cursor. The cursor is now at the
first operand of that operator. -/
structure Cursor.Attached (c c' : Cursor) (d d' : Draft) (op : Operator Plan) : Prop where
  cursor_eq : c' = ⟨d.size, 0⟩
  size_eq : d'.size = d.size + 1
  ext : d.Extends d' (· = c.target)
  ready : c'.Ready d'
  has : d'.graph.Has d.size op []
  inputs_target : d'.graph.inputs c.target =
    d.graph.inputs c.target ++ [⟨d.size, c.operand, false⟩]

theorem attach_eq_ok (hc : c.Ready d) (h : (c.attach op).runOn d = (.ok c', d')) :
    c.Attached c' d d' op := by
  rw [Cursor.attach, Edit.runOn_bind_eq_ok] at h
  obtain ⟨id, d₁, hadd, h⟩ := h
  rw [Draw.add_runOn] at hadd
  obtain ⟨hid, rfl⟩ := Prod.mk.inj hadd
  obtain rfl := Except.ok.inj hid
  rw [Edit.runOn_bind_eq_ok] at h
  obtain ⟨⟨⟩, d₂, hconnect, h⟩ := h
  obtain ⟨hc', rfl⟩ := Prod.mk.inj h
  obtain rfl := Except.ok.inj hc'
  have hsound : (d.withOperator op).Sound := hc.sound.withOperator
  have hnew : ∀ i ∈ (d.withOperator op).graph.inputs c.target, i.operand < c.operand := by
    intro i hi
    rw [Draft.inputs_withOperator] at hi
    exact hc.operand_gt i hi
  obtain ⟨hs, ht, rfl⟩ := Draw.connect_eq_ok hsound.tidy hnew hconnect
  have hne : d.size ≠ c.target := Nat.ne_of_gt hc.target_lt
  have hext : d.Extends ((d.withOperator op).withEdge d.size ⟨c.target, c.operand, false⟩)
      (· = c.target) :=
    (Draft.Extends.refl hc.sound).withOperator.withEdge hs ht hnew (Or.inr rfl) hc.target_ne
      (Or.inr (Nat.le_refl _))
  have hin : ((d.withOperator op).withEdge d.size ⟨c.target, c.operand, false⟩).graph.inputs
      d.size = [] := by
    rw [Draft.inputs_withEdge hsound.tidy hs ht hnew, if_neg hne, Draft.inputs_withOperator,
      hc.sound.inputs_eq_nil (Nat.le_refl _)]
  refine ⟨rfl, by simp, hext, ⟨hext.sound, ?_, ?_, ?_⟩, ⟨?_, hin⟩, ?_⟩
  · simp
  · exact Nat.ne_of_gt hc.sound.size_pos
  · intro i hi
    rw [hin] at hi
    exact absurd hi List.not_mem_nil
  · rw [Draft.operator?_withEdge, Draft.operator?_withOperator, if_pos rfl]
  · rw [Draft.inputs_withEdge hsound.tidy hs ht hnew, if_pos rfl, Draft.inputs_withOperator]

/-- An operator on top of drawings that feed all of its operands. -/
theorem Fed.over (hc : c.Ready d) (hattach : (c.attach op).runOn d = (.ok c', d₁))
    (h : Fed src limit c'.target 0 d₁ d' lists) (htame : op.IsTame src limit)
    (hkind : op.kind ≠ .result) (hyields : op.Yields src limit lists rows) :
    Fed src limit c.target c.operand d d' [rows] := by
  obtain ⟨rfl, hsize, hext, hready, ⟨hop, hnone⟩, hin⟩ := attach_eq_ok hc hattach
  have hnew : d.size < d₁.size := hready.target_lt
  have hop' : d'.graph.operator? d.size = some op := by rw [h.ext.operator?_eq _ hnew, hop]
  obtain ⟨producers, hlen, hfeeds, hrows⟩ := h.feeds
  rw [hnone, List.nil_append] at hfeeds
  have hne : c.target ≠ d.size := Nat.ne_of_lt hc.target_lt
  refine ⟨hext.trans h.ext fun id hid he => ?_, fun id hid hid' => ?_, fun id hid i hi => ?_,
    [d.size], rfl, ?_, fun G F hscene hloops hagrees => .cons ?_ .nil⟩
  · exact absurd (he ▸ hid) (Nat.lt_irrefl _)
  · rcases Nat.eq_or_lt_of_le hid with rfl | hlt
    · exact ⟨op, hop', htame, hkind⟩
    · exact h.tame id (hsize ▸ hlt) hid'
  · rcases Nat.eq_or_lt_of_le hid with rfl | hlt
    · rw [hfeeds] at hi
      obtain ⟨p, -, rfl⟩ := List.mem_map.1 hi
      rfl
    · exact h.forward id (hsize ▸ hlt) i hi
  · rw [h.ext.inputs_eq _ (Nat.lt_of_lt_of_le hc.target_lt hext.size_le) hne, hin]
    rfl
  · have hlists := hrows G F hscene hloops fun id hid hid' =>
      hagrees id (Nat.le_trans hext.size_le hid) hid'
    obtain ⟨hG, hGin⟩ := hagrees d.size (Nat.le_refl _)
      (Nat.lt_of_lt_of_le hnew h.ext.size_le)
    obtain ⟨emitted, hemit, hperm⟩ := hyields d.size (producers.map (F 1))
      (List.forall₂_map_left_iff.2 hlists)
    have hemitted : (op.opened src limit).emit src d.size (solutionOperands
        ((G.inputs d.size).map fun i => (i.operand, Scene.read F 0 i))) =
          .ok (emitted.map .solution) := by
      rw [← hemit, hGin, hfeeds]
      congr 2
      simp [List.zipIdx_map, Scene.read, Function.comp_def]
    rw [(hscene.step (hG.trans hop') 0 hemitted).2 (hloops _)]
    exact hperm

/-! ## Sources -/

theorem Scene.root_rows {G : Graph Plan} {F : Nat → OperatorId → List Solution}
    (h : Scene src limit G F) (hloops : ∀ id, ¬ (Plan.opened ⟨G⟩ src limit).OnLoop id) :
    F 1 Graph.root = [∅] :=
  (h.step h.root 0 Operator.emit_root).2 (hloops _)

theorem addSource_eq_ok {id : OperatorId} (hd : d.Sound)
    (h : (Draw.addSource op).runOn d = (.ok id, d')) :
    id = d.size ∧ d' = (d.withOperator op).withEdge Graph.root ⟨d.size, 0, false⟩ ∧
      d.Extends d' (fun _ => False) ∧ d'.graph.operator? d.size = some op ∧
      d'.graph.inputs d.size = [⟨Graph.root, 0, false⟩] := by
  rw [Draw.addSource, Edit.runOn_bind_eq_ok] at h
  obtain ⟨id', d₁, hadd, h⟩ := h
  rw [Draw.add_runOn] at hadd
  obtain ⟨hid, rfl⟩ := Prod.mk.inj hadd
  obtain rfl := Except.ok.inj hid
  rw [Edit.runOn_bind_eq_ok] at h
  obtain ⟨⟨⟩, d₂, hconnect, h⟩ := h
  obtain ⟨hid', rfl⟩ := Prod.mk.inj h
  obtain rfl := Except.ok.inj hid'
  have hsound : (d.withOperator op).Sound := hd.withOperator
  have hnone : (d.withOperator op).graph.inputs d.size = [] := by
    rw [Draft.inputs_withOperator, hd.inputs_eq_nil (Nat.le_refl _)]
  have hnew : ∀ i ∈ (d.withOperator op).graph.inputs d.size, i.operand < 0 := by
    rw [hnone]
    exact fun i hi => absurd hi List.not_mem_nil
  obtain ⟨hs, ht, rfl⟩ := Draw.connect_eq_ok hsound.tidy hnew hconnect
  refine ⟨rfl, rfl, ?_, ?_, ?_⟩
  · exact (Draft.Extends.refl hd).withOperator.withEdge hs ht hnew (Or.inl (Nat.le_refl _))
      (Nat.ne_of_gt hd.size_pos) (Or.inl rfl)
  · rw [Draft.operator?_withEdge, Draft.operator?_withOperator, if_pos rfl]
  · rw [Draft.inputs_withEdge hsound.tidy hs ht hnew, if_pos rfl, hnone, List.nil_append]

/-- An operator that the root feeds. -/
theorem draws_source (htame : op.IsTame src limit) (hkind : op.kind ≠ .result)
    (hemit : ∀ id, (op.opened src limit).emit src id (solutionOperands [(0, [∅])]) =
      .ok (rows.map .solution)) : Draws src limit (fun c => c.attachSource op) rows := by
  intro c d d' hc h
  change (c.attachSource op).runOn d = _ at h
  rw [Cursor.attachSource, Edit.runOn_bind_eq_ok] at h
  obtain ⟨id, d₁, hadd, h⟩ := h
  obtain ⟨rfl, hd₁, hext, hop, hin⟩ := addSource_eq_ok hc.sound hadd
  have hsize : d₁.size = d.size + 1 := by simp [hd₁]
  have hnew : ∀ i ∈ d₁.graph.inputs c.target, i.operand < c.operand := by
    rw [hext.inputs_eq _ hc.target_lt not_false]
    exact hc.operand_gt
  obtain ⟨hs, ht, rfl⟩ := Draw.connect_eq_ok hext.sound.tidy hnew h
  have hinputs := Draft.inputs_withEdge (f := false) hext.sound.tidy hs ht hnew
  have hne : d.size ≠ c.target := Nat.ne_of_gt hc.target_lt
  have honly : ∀ id, d.size ≤ id → id < (d₁.withEdge d.size ⟨c.target, c.operand, false⟩).size →
      id = d.size := by
    intro id hid hid'
    rw [Draft.size_withEdge, hsize] at hid'
    exact Nat.le_antisymm (Nat.lt_succ_iff.1 hid') hid
  have hread : (d₁.withEdge d.size ⟨c.target, c.operand, false⟩).graph.inputs d.size =
      [⟨Graph.root, 0, false⟩] := by rw [hinputs, if_neg hne, hin]
  refine ⟨?_, fun id hid hid' => ?_, fun id hid i hi => ?_, [d.size], rfl, ?_,
    fun G F hscene hloops hagrees => .cons ?_ .nil⟩
  · exact (hext.mono fun _ h => h.elim).withEdge hs ht hnew (Or.inr rfl) hc.target_ne
      (Or.inr (Nat.le_refl _))
  · rw [honly id hid hid', Draft.operator?_withEdge]
    exact ⟨op, hop, htame, hkind⟩
  · rcases Nat.eq_or_lt_of_le hid with rfl | hlt
    · rw [hread] at hi
      rw [List.mem_singleton.1 hi]
    · have hnone : d₁.graph.inputs id = [] := hext.sound.inputs_eq_nil (hsize ▸ hlt)
      have hne' : id ≠ c.target := Nat.ne_of_gt (Nat.lt_trans hc.target_lt hlt)
      rw [hinputs, if_neg hne', hnone] at hi
      exact absurd hi List.not_mem_nil
  · rw [hinputs, if_pos rfl, hext.inputs_eq _ hc.target_lt not_false]
    rfl
  · obtain ⟨hG, hGin⟩ := hagrees d.size (Nat.le_refl _) (by
      rw [Draft.size_withEdge, hsize]
      exact Nat.lt_succ_self _)
    rw [Draft.operator?_withEdge, hop] at hG
    have hemitted : (op.opened src limit).emit src d.size (solutionOperands
        ((G.inputs d.size).map fun i => (i.operand, Scene.read F 0 i))) =
          .ok (rows.map .solution) := by
      rw [← hemit d.size, hGin, hread]
      simp [Scene.read, hscene.root_rows hloops]
    exact .of_eq ((hscene.step hG 0 hemitted).2 (hloops _))

/-! ## Bags on operands -/

namespace Operator

/-- An operator on one operand that treats it as a bag. -/
theorem yields_one {f : List Solution → List Solution}
    (hf : ∀ {l l' : List Solution}, l.Perm l' → (f l).Perm (f l'))
    (hemit : ∀ id l, (op.opened src limit).emit src id (solutionOperands l) =
      .ok ((f (l.flatMap Prod.snd)).map .solution)) : op.Yields src limit [rows] (f rows) := by
  intro id found hfound
  obtain ⟨l, rfl, hperm⟩ : ∃ l, found = [l] ∧ l.Perm rows := by
    cases hfound with
    | cons h hrest => cases hrest; exact ⟨_, rfl, h⟩
  refine ⟨f l, ?_, hf hperm⟩
  rw [hemit]
  simp

theorem map_snd_swap_zipIdx (found : List (List Solution)) :
    (found.zipIdx.map Prod.swap).map Prod.snd = found := by
  rw [List.map_map]
  exact List.zipIdx_map_fst 0 found

theorem yields_union : Operator.union.Yields src limit lists lists.flatten := by
  intro id found hfound
  refine ⟨found.flatten, ?_, forall₂_perm_flatten hfound⟩
  rw [opened, withNested, emit_union, List.flatMap_def, map_snd_swap_zipIdx]

theorem yields_join (h : lists ≠ []) : Operator.join.Yields src limit lists (joinMany lists) := by
  intro id found hfound
  have hne : found ≠ [] := fun he => by
    subst he
    cases hfound
    exact h rfl
  refine ⟨joinMany found, ?_, forall₂_perm_joinMany hfound⟩
  rw [opened, withNested, emit_join, map_snd_swap_zipIdx, joinAll_eq_joinMany hne]

theorem forall₂_perm_pair {found : List (List Solution)} {l r : List Solution}
    (h : List.Forall₂ List.Perm found [l, r]) :
    ∃ l' r', found = [l', r'] ∧ l'.Perm l ∧ r'.Perm r := by
  cases h with
  | cons hl hrest =>
      cases hrest with
      | cons hr hrest => cases hrest; exact ⟨_, _, rfl, hl, hr⟩

theorem yields_optional {l r : List Solution} :
    Operator.optional.Yields src limit [l, r] (leftJoinSolutions l r) := by
  intro id found hfound
  obtain ⟨l', r', rfl, hl, hr⟩ := forall₂_perm_pair hfound
  refine ⟨leftJoinSolutions l' r', ?_, leftJoinSolutions_perm hl hr⟩
  rw [opened, withNested, emit_optional]
  simp [List.filter_cons]

theorem yields_minus {l r : List Solution} :
    Operator.minus.Yields src limit [l, r] (subtractSolutions l r) := by
  intro id found hfound
  obtain ⟨l', r', rfl, hl, hr⟩ := forall₂_perm_pair hfound
  refine ⟨subtractSolutions l' r', ?_, subtractSolutions_perm hl hr⟩
  rw [opened, withNested, emit_minus]
  simp [List.filter_cons]

end Operator

end QuadAlgebra
