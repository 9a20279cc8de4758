import Mathlib.Algebra.BigOperators.Group.Finset.Piecewise
import QuadAlgebra.Proofs.Optimization.Runs

/-!
# Edges on both sides

An edge is recorded twice: with its producer as an edge, with its consumer as the mere number of the
producer, once per edge. `Graph.Symmetric` says that both records agree and that no producer records
an edge twice. Every edit keeps this (`Graph.Symmetric.performed`), and in such a graph an edit that
fails has changed nothing (`Graph.performed_error`), so every graph that edits make of the empty one
is symmetric (`Graph.edited_symmetric`).

Edges that are recorded with their producers only can be made known to their consumers afterwards
(`Graph.balanced_setParents`).
-/

namespace QuadAlgebra

/-! ## Edits as data -/

/-- A change of the operators or edges of a graph. -/
inductive GraphEdit (γ : Type) where
  | add (op : Operator γ)
  | connect (source target : OperatorId) (operand : Nat) (feedback : Bool)
  | disconnect (source target : OperatorId)
  | remove (id : OperatorId)

namespace GraphEdit

variable {γ : Type}

def perform : GraphEdit γ → Edit (Graph γ) Unit
  | .add op => do let _ ← Graph.add op
  | .connect source target operand feedback => Graph.connect source target operand feedback
  | .disconnect source target => Graph.disconnect source target
  | .remove id => do let _ ← Graph.remove id

end GraphEdit

namespace Graph

variable {γ : Type} {g : Graph γ} {id s t : OperatorId}

/-- The graph that an edit leaves, whether it fails or not. -/
def performed (g : Graph γ) (e : GraphEdit γ) : Graph γ := (e.perform.runOn g).2

/-- The graph that some edits, one after the other, make of the empty one. -/
def edited (edits : List (GraphEdit γ)) : Graph γ := edits.foldl performed empty

/-- The graph after some edges have been recorded with their producers only. -/
def pushed (g : Graph γ) (pushes : List (OperatorId × Edge)) : Graph γ :=
  pushes.foldl (fun g p => ((pushSucceeding p.1 p.2).runOn g).2) g

/-! ## Symmetric graphs -/

/-- Both sides of every edge agree on it, and no edge is recorded twice. -/
structure Symmetric (g : Graph γ) : Prop where
  balanced : g.Balanced
  nodup : ∀ s, (g.succeeding s).Nodup

theorem contains_of_mem_preceding (h : s ∈ g.preceding t) : g.contains t = true := by
  unfold preceding at h
  unfold contains
  cases hn : g.node? t with
  | none => simp [hn] at h
  | some n => rfl

namespace Symmetric

theorem linked (h : g.Symmetric) : g.Linked := h.balanced.linked

/-- Both ends of every edge are there. -/
theorem contains_ends (h : g.Symmetric) {e : Edge} (he : e ∈ g.succeeding s) :
    g.contains s = true ∧ g.contains e.target = true :=
  ⟨contains_of_mem_succeeding he, h.linked.contains_target he⟩

theorem contains_preceding (h : g.Symmetric) (hs : s ∈ g.preceding t) : g.contains s = true := by
  obtain ⟨e, he, -⟩ := (h.linked s t).1 hs
  exact contains_of_mem_succeeding he

/-- The inputs of an operator are the edges into it, each one once, by operand. -/
theorem inputs_spec (h : g.Symmetric) (t : OperatorId) :
    (g.inputs t).Nodup ∧
    (∀ i, i ∈ g.inputs t ↔ ⟨t, i.operand, i.feedback⟩ ∈ g.succeeding i.source) ∧
      (g.inputs t).Pairwise fun i j => i.operand ≤ j.operand :=
  ⟨Tidy.nodup_inputs h.nodup, fun _ => h.linked.mem_inputs, pairwise_stableSort Input.operand _⟩

end Symmetric

theorem symmetric_empty : (empty : Graph γ).Symmetric :=
  ⟨fun s t => by simp [edgesBetween], fun s => by simp⟩

/-! ## Edits that fail -/

theorem mapNode_eq_self {f : Node γ → Node γ} (h : ∀ n, g.node? id = some n → f n = n) :
    g.mapNode id f = g := by
  obtain ⟨slots⟩ := g
  rw [mapNode, Graph.mk.injEq]
  refine List.ext_getElem? fun k => ?_
  rw [List.getElem?_modify]
  split
  · next hk =>
    subst hk
    cases hslot : slots[id]? with
    | none => rfl
    | some slot =>
        cases slot with
        | none => rfl
        | some n =>
            have hn : f n = n := h n (by simp [node?, hslot])
            simp [hn]
  · simp

theorem require_runOn (id : OperatorId) (g : Graph γ) :
    (require id).runOn g =
      match g.node? id with
      | some n => (.ok n, g)
      | none => (.error (.internal (.unknownOperator id)), g) := by
  unfold require
  rw [Edit.runOn_bind, Edit.runOn_get]
  dsimp only
  cases g.node? id <;> rfl

theorem connect_error {operand : Nat} {feedback : Bool} {e : Error} {g' : Graph γ}
    (h : (connect s t operand feedback).runOn g = (.error e, g')) : g' = g := by
  unfold connect at h
  rw [Edit.runOn_bind, Edit.runOn_get] at h
  by_cases ht : g.contains t = true
  · simp only [ht, Bool.not_true, Bool.false_eq_true, if_false, Edit.runOn_bind,
      require_runOn] at h
    cases hn : g.node? s with
    | none =>
        rw [hn] at h
        exact (Prod.mk.inj h).2.symm
    | some n =>
        simp only [hn] at h
        split at h
        · cases (Prod.mk.inj h).1
        · cases (Prod.mk.inj h).1
  · simp only [ht, Bool.not_false, if_true, Edit.runOn_bind] at h
    exact (Prod.mk.inj h).2.symm

/-- Edges to an operator that is not there would have been removed already, but there are none. -/
theorem disconnect_error (hlinked : g.Linked) {e : Error} {g' : Graph γ}
    (h : (disconnect s t).runOn g = (.error e, g')) : g' = g := by
  by_cases hs : g.contains s = true
  · by_cases ht : g.contains t = true
    · obtain ⟨u, g'', hrun, -⟩ := runs_disconnect hs ht
      rw [hrun] at h
      cases (Prod.mk.inj h).1
    · obtain ⟨n, hn⟩ := Option.isSome_iff_exists.1 hs
      have hcut : g.mapNode s (fun n =>
          { n with succeeding := n.succeeding.filter (·.target != t) }) = g := by
        refine mapNode_eq_self fun n hn => ?_
        have hall : ∀ e ∈ n.succeeding, e.target ≠ t := by
          rintro e he rfl
          exact ht (hlinked.contains_target (s := s) (by simpa [succeeding, hn] using he))
        rw [List.filter_eq_self.2 fun e he => bne_iff_ne.2 (hall e he)]
      have hnone : g.node? t = none := by simpa [contains] using ht
      unfold disconnect at h
      simp only [Edit.runOn_bind, require_runOn, hn, Edit.runOn_modify, hcut, hnone] at h
      exact (Prod.mk.inj h).2.symm
  · have hnone : g.node? s = none := by simpa [contains] using hs
    unfold disconnect at h
    simp only [Edit.runOn_bind, require_runOn, hnone] at h
    exact (Prod.mk.inj h).2.symm

/-- Only removals of the root and of operators that are not there fail. -/
theorem remove_error (hlinked : g.Linked) {e : Error} {g' : Graph γ}
    (h : (remove id).runOn g = (.error e, g')) : g' = g := by
  by_cases hroot : id = root
  · unfold remove at h
    rw [if_pos hroot, Edit.runOn_bind] at h
    exact (Prod.mk.inj h).2.symm
  by_cases hid : g.contains id = true
  · obtain ⟨op, g'', hrun, -⟩ := runs_remove hlinked hroot hid
    rw [hrun] at h
    cases (Prod.mk.inj h).1
  · have hnone : g.node? id = none := by simpa [contains] using hid
    unfold remove at h
    simp only [if_neg hroot, Edit.runOn_bind, require_runOn, hnone] at h
    exact (Prod.mk.inj h).2.symm

/-- In a linked graph an edit that fails changes nothing. -/
theorem performed_error (h : g.Linked) {edit : GraphEdit γ} {e : Error} {g' : Graph γ}
    (hrun : edit.perform.runOn g = (.error e, g')) : g' = g := by
  cases edit with
  | add op => cases (Prod.mk.inj hrun).1
  | connect s t operand feedback => exact connect_error hrun
  | disconnect s t => exact disconnect_error h hrun
  | remove id =>
      rw [GraphEdit.perform, Edit.runOn_bind] at hrun
      rcases hremove : (remove id).runOn g with ⟨_ | op, g''⟩
      · rw [hremove] at hrun
        obtain ⟨-, rfl⟩ := Prod.mk.inj hrun
        exact remove_error h hremove
      · rw [hremove] at hrun
        cases (Prod.mk.inj hrun).1

/-! ## Edits that succeed -/

/-- No producer records an edge twice. -/
def Single (g : Graph γ) : Prop := ∀ s, (g.succeeding s).Nodup

theorem connect_keeps_single (operand : Nat) (feedback : Bool) :
    (connect s t operand feedback).Keeps (Single (γ := γ)) := by
  refine fun g h => ends_connect_of (fun _ _ _ => h) fun hs _ hnew x => ?_
  rw [succeeding_withEdge hs]
  split
  · next hx =>
    refine List.nodup_append.2 ⟨h x, List.nodup_singleton _, fun a ha b hb hab => hnew ?_⟩
    exact List.mem_singleton.1 hb ▸ hab ▸ hx ▸ ha
  · exact h x

theorem single_cut (h : g.Single) : (g.cut s t).Single := fun x => by
  rw [succeeding_cut]
  split
  · exact (h x).filter _
  · exact h x

theorem disconnect_keeps_single : (disconnect s t).Keeps (Single (γ := γ)) :=
  fun _ h => ends_disconnect_cut (single_cut h)

theorem remove_keeps_single : (remove id).Keeps (Single (γ := γ)) := by
  intro g h
  unfold remove
  refine Edit.ends_ite (fun _ => Edit.ends_bind.2 Edit.ends_fault) fun _ => ?_
  refine Edit.ends_bind.2 (ends_require.2 fun n _ => ?_)
  refine (Edit.keeps_forM (fun _ _ => disconnect_keeps_single) g h).bind fun _ g₁ h₁ => ?_
  refine (Edit.keeps_forM (fun _ _ => disconnect_keeps_single) g₁ h₁).bind fun _ g₂ h₂ => ?_
  refine Edit.ends_bind.2 (Edit.ends_modify.2 (Edit.ends_pure.2 fun x => ?_))
  rw [succeeding, node?_emptied]
  split
  · exact List.nodup_nil
  · exact h₂ x

/-- An edit that succeeds keeps edges balanced. -/
theorem perform_keeps_balanced (edit : GraphEdit γ) : edit.perform.Keeps (Balanced (γ := γ)) := by
  intro g h
  cases edit with
  | add op =>
      have hbalanced : (g.withOperator op).Balanced :=
        balanced_congr succeeding_withOperator preceding_withOperator h
      unfold GraphEdit.perform add
      simp only [Edit.ends_bind, Edit.ends_get, Edit.ends_set, Edit.ends_pure]
      exact hbalanced
  | connect s t operand feedback => exact connect_keeps_balanced operand feedback g h
  | disconnect s t => exact disconnect_keeps_balanced g h
  | remove id => exact (remove_keeps_balanced g h).bind fun _ _ h' => Edit.ends_pure.2 h'

/-- An edit that succeeds records no edge twice. -/
theorem perform_keeps_single (edit : GraphEdit γ) : edit.perform.Keeps (Single (γ := γ)) := by
  intro g h
  cases edit with
  | add op =>
      have hsingle : (g.withOperator op).Single := fun x => by
        rw [succeeding_withOperator]
        exact h x
      unfold GraphEdit.perform add
      simp only [Edit.ends_bind, Edit.ends_get, Edit.ends_set, Edit.ends_pure]
      exact hsingle
  | connect s t operand feedback => exact connect_keeps_single operand feedback g h
  | disconnect s t => exact disconnect_keeps_single g h
  | remove id => exact (remove_keeps_single g h).bind fun _ _ h' => Edit.ends_pure.2 h'

/-- An edit that succeeds keeps edges balanced and single. -/
theorem perform_keeps (edit : GraphEdit γ) (h : g.Symmetric) :
    edit.perform.Ends g fun _ g' => g'.Symmetric :=
  ((perform_keeps_balanced edit g h.balanced).and (perform_keeps_single edit g h.nodup)).mono
    fun _ _ h' => ⟨h'.1, h'.2⟩

theorem Symmetric.performed (h : g.Symmetric) (edit : GraphEdit γ) :
    (g.performed edit).Symmetric := by
  rcases hrun : edit.perform.runOn g with ⟨_ | u, g'⟩
  · have hsame := performed_error h.linked hrun
    rwa [Graph.performed, hrun, hsame]
  · rw [Graph.performed, hrun]
    exact perform_keeps edit h u g' hrun

theorem symmetric_edited (edits : List (GraphEdit γ)) : (edited edits).Symmetric := by
  suffices ∀ g : Graph γ, g.Symmetric → (edits.foldl Graph.performed g).Symmetric from
    this empty symmetric_empty
  induction edits with
  | nil => exact fun _ h => h
  | cons edit rest ih => exact fun g h => ih _ (h.performed edit)

/-- An edit that succeeds leaves the root in its place. -/
theorem perform_keeps_root (edit : GraphEdit γ) (h : g.operator? root = some .root) :
    edit.perform.Ends g fun _ g' => g'.operator? root = some .root := by
  cases edit with
  | add op =>
      unfold GraphEdit.perform add
      simp only [Edit.ends_bind, Edit.ends_get, Edit.ends_set, Edit.ends_pure]
      change (g.withOperator op).operator? root = _
      have hlength : root ≠ g.slots.length := by
        rintro hroot
        rw [operator?, node?_eq_none hroot.ge] at h
        cases h
      rw [operator?_withOperator, if_neg hlength, h]
  | connect s t operand feedback =>
      exact (connect_keeps_operators operand feedback g fun _ => rfl).mono
        fun _ _ h' => (h' root).trans h
  | disconnect s t =>
      exact (disconnect_keeps_operators g fun _ => rfl).mono fun _ _ h' => (h' root).trans h
  | remove id =>
      by_cases hid : id = root
      · refine Edit.ends_bind.2 ?_
        unfold remove
        exact Edit.ends_ite (fun _ => Edit.ends_bind.2 Edit.ends_fault) fun hne => absurd hid hne
      · refine Edit.ends_bind.2 (ends_remove_operators.mono fun _ _ h' => Edit.ends_pure.2 ?_)
        rw [h'.2, if_neg (Ne.symm hid), h]

theorem operator?_root_edited (edits : List (GraphEdit γ)) :
    (edited edits).operator? root = some .root := by
  suffices ∀ g : Graph γ, g.Symmetric ∧ g.operator? root = some .root →
      (edits.foldl Graph.performed g).operator? root = some .root from
    this empty ⟨symmetric_empty, rfl⟩
  induction edits with
  | nil => exact fun _ h => h.2
  | cons edit rest ih =>
      refine fun g h => ih _ ⟨h.1.performed edit, ?_⟩
      rcases hrun : edit.perform.runOn g with ⟨_ | u, g'⟩
      · have hsame := performed_error h.1.linked hrun
        rw [Graph.performed, hrun, hsame, h.2]
      · rw [Graph.performed, hrun]
        exact perform_keeps_root edit h.2 u g' hrun

/-! ## Edges that consumers learn of later -/

theorem pushSucceeding_runOn (s : OperatorId) (e : Edge) (g : Graph γ) :
    ((pushSucceeding s e).runOn g).2 =
      g.mapNode s fun n => { n with succeeding := n.succeeding ++ [e] } := by
  unfold pushSucceeding
  rw [Edit.runOn_bind, require_runOn]
  cases hs : g.node? s with
  | none =>
      refine (mapNode_eq_self fun n hn => ?_).symm
      rw [hs] at hn
      cases hn
  | some n => rfl

theorem pushed_cons (p : OperatorId × Edge) (pushes : List (OperatorId × Edge)) :
    g.pushed (p :: pushes) = (g.mapNode p.1 fun n =>
      { n with succeeding := n.succeeding ++ [p.2] }).pushed pushes := by
  rw [pushed, List.foldl_cons, pushSucceeding_runOn]
  rfl

theorem contains_pushed (pushes : List (OperatorId × Edge)) (x : OperatorId) :
    (g.pushed pushes).contains x = g.contains x := by
  induction pushes generalizing g with
  | nil => rfl
  | cons p rest ih => rw [pushed_cons, ih, contains_mapNode]

theorem operator?_pushed (pushes : List (OperatorId × Edge)) (x : OperatorId) :
    (g.pushed pushes).operator? x = g.operator? x := by
  induction pushes generalizing g with
  | nil => rfl
  | cons p rest ih =>
      rw [pushed_cons, ih]
      exact operator?_mapNode (by intro n; rfl) x

/-- Operators that are there record what has been pushed, in order. -/
theorem succeeding_pushed (pushes : List (OperatorId × Edge)) (hs : g.contains s = true) :
    (g.pushed pushes).succeeding s =
      g.succeeding s ++ (pushes.filter (·.1 == s)).map Prod.snd := by
  induction pushes generalizing g with
  | nil => simp [pushed]
  | cons p rest ih =>
      obtain ⟨source, e⟩ := p
      obtain ⟨n, hn⟩ := Option.isSome_iff_exists.1 hs
      rw [pushed_cons, ih ((contains_mapNode _ _).trans hs)]
      by_cases hsource : s = source
      · subst hsource
        simp [succeeding, node?_mapNode, hn]
      · simp [succeeding, node?_mapNode, hsource, Ne.symm hsource]

/-- What consumers record is made anew from what producers record; nothing else changes. -/
theorem node?_setParents (x : OperatorId) :
    g.setParents.node? x = (g.node? x).map fun n => { n with preceding := g.producers x } := by
  have hfold (c : OperatorId → List OperatorId) (l : List OperatorId) (h : Graph γ) :
      (l.foldl (fun h id => h.mapNode id fun n => { n with preceding := c id }) h).node? x =
        if x ∈ l then (h.node? x).map fun n => { n with preceding := c x } else h.node? x := by
    induction l generalizing h with
    | nil => rfl
    | cons id rest ih =>
        rw [List.foldl_cons, ih, node?_mapNode]
        by_cases hx : x = id
        · subst hx
          cases h.node? x <;> simp
        · simp [hx]
  rw [setParents, hfold]
  split
  · rfl
  · next hx =>
    have hnone : g.node? x = none := by simpa [mem_ids, contains] using hx
    rw [hnone]
    rfl

theorem operator?_setParents (x : OperatorId) : g.setParents.operator? x = g.operator? x := by
  rw [operator?, node?_setParents, operator?]
  cases g.node? x <;> rfl

theorem succeeding_setParents (x : OperatorId) :
    g.setParents.succeeding x = g.succeeding x := by
  rw [succeeding, node?_setParents, succeeding]
  cases g.node? x <;> rfl

/-- An operator is a producer once for each of its edges. -/
theorem count_producers (s t : OperatorId) :
    (g.producers t).count s = (g.edgesBetween s t).length := by
  have hsources (x : OperatorId) : (g.edgesBetween x t).map Input.source =
      List.replicate (g.edgesBetween x t).length x := by
    rw [List.eq_replicate_iff, List.length_map]
    refine ⟨rfl, fun y hy => ?_⟩
    obtain ⟨i, hi, rfl⟩ := List.mem_map.1 hy
    exact (mem_edgesBetween.1 hi).1
  have hnodup : g.ids.Nodup := List.nodup_range.filter _
  simp only [producers, List.count_flatMap, Function.comp_def, hsources, List.count_replicate,
    beq_iff_eq]
  rw [← List.sum_toFinset _ hnodup, Finset.sum_ite_eq', ite_eq_left_iff,
    List.mem_toFinset]
  intro hs
  refine (List.length_eq_zero_iff.2 (not_not.1 (mt edgesBetween_ne_nil.1 ?_))).symm
  rintro ⟨e, he, -⟩
  exact hs (mem_ids.2 (contains_of_mem_succeeding he))

/-- If all edges lead to operators that are there, both sides agree once consumers have learnt of
them. -/
theorem balanced_setParents (h : ∀ s, ∀ e ∈ g.succeeding s, g.contains e.target = true) :
    g.setParents.Balanced := by
  intro s t
  have hpreceding : g.setParents.preceding t = if g.contains t then g.producers t else [] := by
    rw [preceding, node?_setParents, contains]
    cases g.node? t <;> rfl
  rw [hpreceding, edgesBetween, succeeding_setParents, ← edgesBetween]
  split
  · exact (count_producers s t).symm
  · next ht =>
    have hnone : g.edgesBetween s t = [] := by
      refine not_not.1 (mt edgesBetween_ne_nil.1 ?_)
      rintro ⟨e, he, rfl⟩
      exact ht (h s e he)
    rw [hnone]
    rfl

theorem balanced_pushed (h : g.Linked) {pushes : List (OperatorId × Edge)}
    (hpushes : ∀ p ∈ pushes, g.contains p.2.target = true) :
    (g.pushed pushes).setParents.Balanced := by
  refine balanced_setParents fun s e he => ?_
  rw [contains_pushed]
  have hs : g.contains s = true := by
    rw [← contains_pushed (g := g) pushes]
    exact contains_of_mem_succeeding he
  rw [succeeding_pushed pushes hs, List.mem_append, List.mem_map] at he
  rcases he with he | ⟨p, hp, rfl⟩
  · exact h.contains_target he
  · exact hpushes p (List.mem_filter.1 hp).1

/-! ## All graphs that edits make -/

/-- Whatever edits have made of the empty graph, and whichever of them have failed: a further edit
that fails changes nothing; both sides of every edge agree, each edge is recorded once, both of its
ends are there, and the inputs of an operator are the edges into it. If more edges to operators that
are there are recorded with their producers only, both sides agree again once consumers have learnt
of them. -/
theorem edited_symmetric (edits : List (GraphEdit γ)) :
    (∀ (edit : GraphEdit γ) (e : Error) (g' : Graph γ),
      edit.perform.runOn (edited edits) = (.error e, g') → g' = edited edits) ∧
    (edited edits).verifyEdges = .ok () ∧
    (∀ s, ((edited edits).succeeding s).Nodup) ∧
    (∀ s, ∀ e ∈ (edited edits).succeeding s,
      (edited edits).contains s = true ∧ (edited edits).contains e.target = true) ∧
    (∀ t, ∀ s ∈ (edited edits).preceding t,
      (edited edits).contains s = true ∧ (edited edits).contains t = true) ∧
    (∀ s t, ((edited edits).preceding t).count s =
      ((edited edits).succeeding s).countP (·.target == t)) ∧
    (∀ t, ((edited edits).inputs t).Nodup ∧
      (∀ i, i ∈ (edited edits).inputs t ↔
        ⟨t, i.operand, i.feedback⟩ ∈ (edited edits).succeeding i.source) ∧
      ((edited edits).inputs t).Pairwise fun i j => i.operand ≤ j.operand) ∧
    ∀ pushes : List (OperatorId × Edge),
      (∀ p ∈ pushes, (edited edits).contains p.2.target = true) →
      ((edited edits).pushed pushes).setParents.verifyEdges = .ok () ∧
      (∀ s t, (((edited edits).pushed pushes).setParents.preceding t).count s =
        (((edited edits).pushed pushes).setParents.succeeding s).countP (·.target == t)) ∧
      ∀ s, (edited edits).contains s = true →
        ((edited edits).pushed pushes).setParents.succeeding s =
          (edited edits).succeeding s ++ (pushes.filter (·.1 == s)).map Prod.snd := by
  have h := symmetric_edited edits
  have hcount {g : Graph γ} (hbalanced : g.Balanced) (s t : OperatorId) :
      (g.preceding t).count s = (g.succeeding s).countP (·.target == t) := by
    rw [← hbalanced, edgesBetween, List.length_map, List.countP_eq_length_filter]
  refine ⟨fun edit e g' => performed_error h.linked, verifyEdges_eq_ok.2 h.balanced, h.nodup,
    fun s e he => h.contains_ends he, fun t s hs => ⟨h.contains_preceding hs,
      contains_of_mem_preceding hs⟩, hcount h.balanced, h.inputs_spec, fun pushes hpushes => ?_⟩
  have hbalanced := balanced_pushed h.linked hpushes
  refine ⟨verifyEdges_eq_ok.2 hbalanced, hcount hbalanced, fun s hs => ?_⟩
  rw [succeeding_setParents, succeeding_pushed pushes hs]

end Graph

end QuadAlgebra
