import QuadAlgebra.Proofs.Planning.Finish
import QuadAlgebra.Proofs.Relocation.Copies

/-!
# What plans show inside larger plans

A graph that holds another one at a site has a copy of it (`Site.Holds.copies`), also after more
operators read from the copy, after both graphs have been finished and after their nested plans
have been evaluated. So a pattern has the same solutions in a larger plan as in a plan of its own
(`Site.Copies.evaluate`).
-/

namespace QuadAlgebra

/-! ## Inputs of placed operators -/

namespace Graph

variable {γ : Type} {g : Graph γ} {s t : OperatorId} {e : Edge}

/-- A new edge changes what is read at its target only. -/
theorem inputs_withEdge_of_ne (hs : g.contains s = true) (ht : g.contains e.target = true)
    (hne : t ≠ e.target) : (g.withEdge s e).inputs t = g.inputs t := by
  have hbetween (x : OperatorId) : (g.withEdge s e).edgesBetween x t = g.edgesBetween x t := by
    rw [edgesBetween, edgesBetween, succeeding_withEdge hs]
    split
    · rw [List.filter_append, List.filter_singleton, beq_false_of_ne hne.symm, cond_false,
        List.append_nil]
    · rfl
  simp only [inputs, preceding_withEdge ht, if_neg hne, hbetween]

end Graph

namespace Site

variable {s : Site} {g h : Graph Plan}

theorem exists_place {id : Nat} (hid : s.first ≤ id) : ∃ k, id = s.place k := by
  refine ⟨id - s.first + 2, ?_⟩
  rw [place]
  omega

/-- What stands outside of a plan that is held has been there before. -/
theorem lt_first_of_outside {id : Nat} (hout : ∀ k, id ≠ s.place k) :
    id < s.first ∧ id ≠ 0 ∧ id ≠ s.target := by
  refine ⟨Nat.lt_of_not_le fun hle => ?_, hout 0, hout 1⟩
  obtain ⟨k, hk⟩ := exists_place hle
  exact hout k hk

theorem outside_of_lt_first {id : Nat} (hid : id < s.first) (hzero : id ≠ 0)
    (htarget : id ≠ s.target) (k : Nat) : id ≠ s.place k := by
  rcases k with _ | _ | k
  · exact hzero
  · exact htarget
  · exact Nat.ne_of_lt (Nat.lt_of_lt_of_le hid (first_le_place (Nat.le_add_left 2 k)))

namespace Holds

theorem source_ne (hh : s.Holds g h) {id x : Nat} (hx : x ∈ g.preceding id) : x ≠ 1 := by
  rintro rfl
  obtain ⟨e, he, -⟩ := (hh.linked 1 id).1 hx
  rw [hh.result_unread] at he
  cases he

theorem inputs_place (hh : s.Holds g h) (id : Nat) :
    h.inputs (s.place id) = (g.inputs id).map s.placeInput := by
  rw [Graph.inputs, Graph.inputs, hh.preceding, distinctOf_map place_injective, List.flatMap_map,
    ← stableSort_map (f := s.placeInput) (fun a b => compare a.operand b.operand)
      (fun a b => compare a.operand b.operand) fun _ _ => rfl, List.map_flatMap]
  refine congrArg _ (List.flatMap_congr fun x hx => ?_)
  rw [Graph.edgesBetween, Graph.edgesBetween, hh.succeeding x (hh.source_ne (mem_distinctOf.1 hx)),
    List.filter_map, List.map_map, List.map_map]
  have hsame : (fun e : Edge => e.target == s.place id) ∘ s.placeEdge = fun e => e.target == id :=
    funext fun e => by simp [placeEdge, place_inj]
  rw [hsame]
  rfl

/-- A graph that holds another one has a copy of it. -/
theorem copies (hh : s.Holds g h) : s.Copies g h where
  linked := hh.linked
  linked' := hh.linked'
  contains id := by rw [Bool.eq_iff_iff, hh.contains_place]
  operator? := hh.operator?
  inputs := hh.inputs_place
  result := ⟨_, hh.result⟩
  unread := hh.result_unread
  forward i hi := (hh.into_result _ _ (hh.linked.mem_inputs.1 hi) rfl).2
  outside id hout e he := by
    obtain ⟨hlt, hzero, -⟩ := lt_first_of_outside hout
    rw [hh.succeeding_old id hlt hzero] at he
    have hsmaller := s.descending id e he
    have hreads := (s.linked id e.target).2 ⟨e, he, rfl⟩
    refine ⟨hsmaller, outside_of_lt_first (Nat.lt_trans hsmaller hlt) (fun hz => ?_) fun ht => ?_⟩
    · have hnil := s.root_free.2
      rw [hz] at hreads
      exact List.not_mem_nil (hnil ▸ hreads)
    · rw [ht, s.target_free] at hreads
      cases hreads

/-- What has been there before is read as before. -/
theorem inputs_old (hh : s.Holds g h) {id : Nat} (hid : id < s.first) (hne : id ≠ s.target) :
    h.inputs id = s.base.inputs id := by
  rw [Graph.inputs, Graph.inputs, hh.preceding_old id hid hne]
  refine congrArg _ (List.flatMap_congr fun x hx => ?_)
  obtain ⟨e, he, -⟩ := (s.linked x id).1 (mem_distinctOf.1 hx)
  have hlive : x < s.first := (s.live x).1 (Graph.contains_of_mem_succeeding he)
  have hzero : x ≠ 0 := by
    rintro rfl
    have hfree := s.root_free.1
    rw [Graph.root] at hfree
    rw [hfree] at he
    cases he
  rw [Graph.edgesBetween, Graph.edgesBetween, hh.succeeding_old x hlive hzero]

end Holds

/-- A plan that consists of its result only is held wherever there is a site. -/
theorem holds_base (s : Site) :
    s.Holds (Graph.empty.withOperator (.result (.select []))) s.base := by
  have hsucceeding (id : Nat) :
      (Graph.empty.withOperator (.result (.select [])) : Graph Plan).succeeding id = [] := by
    rcases id with _ | _ | id <;> rfl
  have hpreceding (id : Nat) :
      (Graph.empty.withOperator (.result (.select [])) : Graph Plan).preceding id = [] := by
    rcases id with _ | _ | id <;> rfl
  have hnone {id : Nat} (hid : 2 ≤ id) : s.base.node? (s.place id) = none :=
    Graph.node?_eq_none (first_le_place hid)
  refine ⟨Nat.le_refl 2, rfl, fun id => ?_, s.live, fun x y => ?_, s.linked,
    fun x => (hsucceeding x).symm ▸ List.nodup_nil, rfl, fun id op hop => ?_,
    hsucceeding 1, fun x e he => ?_, fun x e he => ?_, fun id hid => ?_, fun id hid => ?_,
    fun id => ?_, fun _ _ => rfl, fun _ _ _ => rfl, fun _ _ _ => rfl⟩
  · rcases id with _ | _ | id
    · exact ⟨fun _ => Nat.zero_lt_two, fun _ => rfl⟩
    · exact ⟨fun _ => Nat.one_lt_two, fun _ => rfl⟩
    · exact ⟨fun h => absurd h Bool.false_ne_true,
        fun h => absurd h (Nat.not_lt.2 (Nat.le_add_left 2 id))⟩
  · simp [hsucceeding, hpreceding]
  · rcases id with _ | _ | id
    · obtain rfl := Option.some.inj hop
      exact ⟨fun h => absurd h (by decide), fun h => absurd h Nat.zero_ne_one⟩
    · obtain rfl := Option.some.inj hop
      exact ⟨fun _ => rfl, fun _ => rfl⟩
    · cases hop
  · rw [hsucceeding] at he
    cases he
  · rw [hsucceeding] at he
    cases he
  · rcases id with _ | _ | id
    · exact s.root
    · exact absurd rfl hid
    · rw [Graph.operator?, hnone (Nat.le_add_left 2 id)]
      rfl
  · rw [hsucceeding]
    rcases id with _ | _ | id
    · exact s.root_free.1
    · exact absurd rfl hid
    · rw [Graph.succeeding, hnone (Nat.le_add_left 2 id)]
      rfl
  · rw [hpreceding]
    rcases id with _ | _ | id
    · exact s.root_free.2
    · exact s.target_free
    · rw [Graph.preceding, hnone (Nat.le_add_left 2 id)]
      rfl

namespace Copies

/-- More operators outside of a copy may read from it. -/
theorem withEdge {γ : Type} {g h : Graph γ} (hc : s.Copies g h) {x : Nat} {e : Edge}
    (hx : h.contains (s.place x) = true) (ht : h.contains e.target = true)
    (hout : ∀ k, e.target ≠ s.place k) : s.Copies g (h.withEdge (s.place x) e) where
  linked := hc.linked
  linked' := hc.linked'.withEdge hx ht
  contains id := by rw [Graph.contains_withEdge, hc.contains]
  operator? id hid := by rw [Graph.operator?_withEdge, hc.operator? id hid]
  inputs id := by rw [Graph.inputs_withEdge_of_ne hx ht (hout id).symm, hc.inputs]
  result := hc.result
  unread := hc.unread
  forward := hc.forward
  outside id hid e' he' := by
    rw [Graph.succeeding_withEdge hx, if_neg (hid x)] at he'
    exact hc.outside id hid e' he'

theorem sameEdges {γ : Type} {g h g' h' : Graph γ} (hc : s.Copies g h) (hg : g.SameEdges g')
    (hh : h.SameEdges h') : s.Copies g' h' where
  linked x y := by rw [hg.preceding, hg.succeeding, hc.linked]
  linked' x y := by rw [hh.preceding, hh.succeeding, hc.linked']
  contains id := by rw [hg.contains, hh.contains, hc.contains]
  operator? id hid := by rw [hg.operator?, hh.operator?, hc.operator? id hid]
  inputs id := by rw [hg.inputs, hh.inputs, hc.inputs]
  result := by rw [hg.operator?]; exact hc.result
  unread := by rw [hg.succeeding, hc.unread]
  forward := by rw [hg.inputs]; exact hc.forward
  outside id hid e he := hc.outside id hid e (hh.succeeding id ▸ he)

theorem mapNested {γ δ : Type} {g h : Graph γ} (hc : s.Copies g h) (f : γ → δ) :
    s.Copies (g.mapNested f) (h.mapNested f) where
  linked x y := by simp only [Graph.preceding_mapNested, Graph.succeeding_mapNested, hc.linked x y]
  linked' x y := by
    simp only [Graph.preceding_mapNested, Graph.succeeding_mapNested, hc.linked' x y]
  contains id := by rw [Graph.contains_mapNested, Graph.contains_mapNested, hc.contains]
  operator? id hid := by
    have hop := hc.operator? id hid
    simp only [Graph.operator?, Graph.node?_mapNested] at hop ⊢
    cases hh : h.node? (s.place id) <;> cases hg : g.node? id <;> simp_all
  inputs id := by rw [Graph.inputs_mapNested, Graph.inputs_mapNested, hc.inputs]
  result := by
    obtain ⟨form, hform⟩ := hc.result
    refine ⟨form, ?_⟩
    rw [Graph.operator?, Graph.node?_mapNested]
    rw [Graph.operator?] at hform
    obtain ⟨n, hn, hop⟩ := Option.map_eq_some_iff.1 hform
    rw [hn, Option.map_some, Option.map_some, hop]
    rfl
  unread := by rw [Graph.succeeding_mapNested, hc.unread]
  forward := by rw [Graph.inputs_mapNested]; exact hc.forward
  outside id hid e he := hc.outside id hid e (Graph.succeeding_mapNested f h id ▸ he)

end Copies

end Site

/-! ## Solutions -/

namespace Graph

/-- A graph that has an order can be finished. -/
theorem updateVariables_of_order {γ : Type} {g : Graph γ} {order : List OperatorId}
    (horder : g.topologicalOrder = .ok order) :
    ∃ g', updateVariables.runOn g = (.ok (), g') := by
  obtain ⟨values, hvalues⟩ : ∃ values, g.bounds = .ok values := by
    rw [bounds, propagate, horder]
    exact ⟨_, rfl⟩
  rw [updateVariables, Edit.runOn_bind, Edit.runOn_get]
  simp only [hvalues, Edit.runOn_set]
  exact ⟨_, rfl⟩

end Graph

namespace Site.Copies

variable {s : Site} {G E : Graph Plan} {src : Source} {limit n : Nat} {rows : Assignment}

/-- A pattern has the same solutions in a larger plan as in a plan of its own. -/
theorem evaluate (hc : s.Copies G E)
    (hresult : ∀ id op, G.operator? id = some op → (op.kind = .result ↔ id = 1))
    (hop : G.operator? 1 = some (.result (.select [])))
    (hfinal : (Plan.opened ⟨E⟩ src limit).finalRows src limit = .ok (rows, n))
    {found : List Solution}
    (hfound : arriving s (Plan.opened ⟨G⟩ src limit) rows = found.map .solution) :
    ∃ m, Plan.evaluate src limit ⟨G⟩ = .ok ⟨some (.select []), found, [], [], [], m⟩ := by
  have hopened : s.Copies (Plan.opened ⟨G⟩ src limit) (Plan.opened ⟨E⟩ src limit) :=
    hc.mapNested _
  obtain ⟨rows', m, hfinal', hrows'⟩ := hopened.finalRows hfinal
  refine ⟨m + 1, ?_⟩
  rw [Plan.evaluate_eq, Graph.evaluate_eq, hfinal']
  have hresults : (Plan.opened ⟨G⟩ src limit).results = [1] := by
    refine results_opened (fun id hid => ?_) (Graph.mem_ids_of_operator? hop)
    obtain ⟨op, hid⟩ := Option.isSome_iff_exists.1 (by
      rw [Graph.mem_ids, Graph.contains, ← Option.isSome_map (f := Node.operator)] at hid
      exact hid)
    exact ⟨op, hid, hresult id op hid⟩
  have hshows : (Plan.opened ⟨G⟩ src limit).operator? 1 = some (.result (.select [])) := by
    rw [operator?_opened, hop]
    rfl
  exact collect_result hresults hshows (hrows'.trans hfound)

end Site.Copies

end QuadAlgebra
