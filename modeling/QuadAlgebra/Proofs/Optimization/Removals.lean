import QuadAlgebra.Proofs.Optimization.Runs

/-!
# Graphs without some of their operators

`g.without gone` is the graph `g` with the slots of the operators `gone` emptied and with no edge
left at any of them. A removal leaves just that (`Graph.runs_remove_without`), and one removal after
the other leaves the graph without all of them (`Graph.without_without`).
-/

namespace QuadAlgebra

/-- The operator with its edges, save those that lead to or from the operators that are gone. -/
def Node.without {γ : Type} (gone : List OperatorId) (n : Node γ) : Node γ :=
  { n with
    preceding := n.preceding.filter (· ∉ gone)
    succeeding := n.succeeding.filter (·.target ∉ gone) }

namespace Graph

variable {γ : Type} {g : Graph γ} {gone : List OperatorId} {id x : OperatorId}

/-- The graph in which the slots of some operators are empty and their edges are missing. -/
def without (g : Graph γ) (gone : List OperatorId) : Graph γ :=
  ⟨g.slots.mapIdx fun x slot => if x ∈ gone then none else slot.map (Node.without gone)⟩

@[simp] theorem length_without : (g.without gone).slots.length = g.slots.length := by
  simp [without]

theorem node?_without (x : OperatorId) : (g.without gone).node? x =
    if x ∈ gone then none else (g.node? x).map (Node.without gone) := by
  rw [node?, without, List.getElem?_mapIdx, node?]
  rcases g.slots[x]? with _ | slot <;> by_cases hx : x ∈ gone <;> simp [hx]

theorem operator?_without (x : OperatorId) : (g.without gone).operator? x =
    if x ∈ gone then none else g.operator? x := by
  rw [operator?, node?_without]
  split
  · rfl
  · rw [Option.map_map]
    rfl

theorem mem_succeeding_without {e : Edge} : e ∈ (g.without gone).succeeding x ↔
    e ∈ g.succeeding x ∧ x ∉ gone ∧ e.target ∉ gone := by
  rw [succeeding, node?_without, succeeding]
  by_cases hx : x ∈ gone
  · simp [hx]
  · cases g.node? x <;> simp [hx, Node.without]

theorem mem_preceding_without {s : OperatorId} : s ∈ (g.without gone).preceding x ↔
    s ∈ g.preceding x ∧ x ∉ gone ∧ s ∉ gone := by
  rw [preceding, node?_without, preceding]
  by_cases hx : x ∈ gone
  · simp [hx]
  · cases g.node? x <;> simp [hx, Node.without]

/-- Both sides of the edges that are left know of them. -/
theorem Linked.without (h : g.Linked) : (g.without gone).Linked := by
  intro s t
  rw [mem_preceding_without, h]
  constructor
  · rintro ⟨⟨e, he, rfl⟩, ht, hs⟩
    exact ⟨e, mem_succeeding_without.2 ⟨he, hs, ht⟩, rfl⟩
  · rintro ⟨e, he, rfl⟩
    obtain ⟨he, hs, ht⟩ := mem_succeeding_without.1 he
    exact ⟨⟨e, he, rfl⟩, ht, hs⟩

theorem without_nil : g.without [] = g := by
  refine ext_node? length_without fun x => ?_
  rw [node?_without]
  cases g.node? x <;> simp [Node.without]

/-- To take out one operator more is to take out all of them at once. -/
theorem without_without (id : OperatorId) :
    (g.without gone).without [id] = g.without (id :: gone) := by
  refine ext_node? (by simp only [length_without]) fun x => ?_
  rw [node?_without, node?_without, node?_without]
  by_cases hx : x = id
  · simp [hx]
  · by_cases hgone : x ∈ gone
    · simp [hgone]
    · cases g.node? x <;> simp [hx, hgone, Node.without]

/-! ## Cuts -/

/-- The graph without the edges from the first to the second operator of each pair. -/
def severed (g : Graph γ) (pairs : List (OperatorId × OperatorId)) : Graph γ :=
  pairs.foldl (fun g p => g.cut p.1 p.2) g

theorem severed_cons (p : OperatorId × OperatorId) (pairs : List (OperatorId × OperatorId)) :
    g.severed (p :: pairs) = (g.cut p.1 p.2).severed pairs := rfl

theorem node?_cut (s t x : OperatorId) : (g.cut s t).node? x = (g.node? x).map fun n =>
    { n with
      preceding := n.preceding.filter fun y => (y, x) ≠ (s, t)
      succeeding := n.succeeding.filter fun e => (x, e.target) ≠ (s, t) } := by
  have hbne (a b : OperatorId) : (a != b) = !decide (a = b) := rfl
  rw [cut, node?_mapNode, node?_mapNode]
  cases g.node? x <;> by_cases hs : x = s <;> by_cases ht : x = t
  all_goals subst_vars
  all_goals simp_all

theorem node?_severed (pairs : List (OperatorId × OperatorId)) (x : OperatorId) :
    (g.severed pairs).node? x = (g.node? x).map fun n =>
      { n with
        preceding := n.preceding.filter fun y => (y, x) ∉ pairs
        succeeding := n.succeeding.filter fun e => (x, e.target) ∉ pairs } := by
  induction pairs generalizing g with
  | nil =>
      show g.node? x = _
      cases g.node? x <;> simp
  | cons p rest ih =>
      rw [severed_cons, ih, node?_cut]
      cases g.node? x with
      | none => rfl
      | some n => simp [List.filter_filter, Bool.and_comm]

theorem length_severed (pairs : List (OperatorId × OperatorId)) :
    (g.severed pairs).slots.length = g.slots.length := by
  induction pairs generalizing g with
  | nil => rfl
  | cons p rest ih =>
      rw [severed_cons, ih]
      simp [cut]

theorem contains_severed (pairs : List (OperatorId × OperatorId)) (x : OperatorId) :
    (g.severed pairs).contains x = g.contains x := by
  rw [contains, node?_severed, Option.isSome_map, contains]

theorem severed_append (pairs pairs' : List (OperatorId × OperatorId)) :
    (g.severed pairs).severed pairs' = g.severed (pairs ++ pairs') :=
  List.foldl_append.symm

/-! ## Removals -/

theorem disconnect_runOn {s t : OperatorId} (hs : g.contains s = true) (ht : g.contains t = true) :
    (disconnect s t).runOn g = (.ok (), g.cut s t) := by
  obtain ⟨u, g', hrun, -⟩ := runs_disconnect hs ht
  have hends : (disconnect s t).Ends g fun _ g' => g' = g.cut s t := ends_disconnect_cut rfl
  rw [hrun, hends u g' hrun]

/-- Operators that are there can be disconnected pair by pair. -/
theorem runs_forM_disconnect {α : Type} {l : List α} {source target : α → OperatorId}
    (hlive : ∀ a ∈ l, g.contains (source a) = true ∧ g.contains (target a) = true) :
    (l.forM fun a => disconnect (source a) (target a)).Runs g fun _ g' =>
      g' = g.severed (l.map fun a => (source a, target a)) := by
  refine Edit.runs_forM_of_step (fun done g' =>
    g' = g.severed (done.map fun a => (source a, target a))) rfl ?_
  rintro done a rest rfl g' rfl
  obtain ⟨hs, ht⟩ := hlive a (by simp)
  refine ⟨_, _, disconnect_runOn ((contains_severed _ _).trans hs)
    ((contains_severed _ _).trans ht), ?_⟩
  rw [List.map_append, ← severed_append]
  rfl

/-- The edges at an operator, as pairs of producer and consumer. -/
def pairsAt (g : Graph γ) (id : OperatorId) : List (OperatorId × OperatorId) :=
  (g.preceding id).map (fun s => (s, id)) ++ (g.succeeding id).map fun e => (id, e.target)

/-- Once the edges at an operator have been cut, others have the edges that they have without it. -/
theorem node?_severed_pairsAt (h : g.Linked) (hx : x ≠ id) :
    (g.severed (g.pairsAt id)).node? x = (g.without [id]).node? x := by
  rw [node?_severed, node?_without, if_neg (by simpa using hx)]
  cases hn : g.node? x with
  | none => rfl
  | some n =>
      have hsource (y : OperatorId) (hy : y ∈ n.preceding) :
          (y, x) ∈ g.pairsAt id ↔ y ∈ [id] := by
        have hedge := (h y x).1 (by simpa [preceding, hn] using hy)
        simp only [pairsAt, List.mem_append, List.mem_map, Prod.mk.injEq, List.mem_singleton]
        constructor
        · rintro (⟨s, -, -, he⟩ | ⟨e, -, he, -⟩)
          · exact absurd he.symm hx
          · exact he.symm
        · rintro rfl
          obtain ⟨e, he, htarget⟩ := hedge
          exact .inr ⟨e, he, rfl, htarget⟩
      have htarget (e : Edge) (he : e ∈ n.succeeding) :
          (x, e.target) ∈ g.pairsAt id ↔ e.target ∈ [id] := by
        have hedge : x ∈ g.preceding e.target :=
          (h x e.target).2 ⟨e, by simpa [succeeding, hn] using he, rfl⟩
        simp only [pairsAt, List.mem_append, List.mem_map, Prod.mk.injEq, List.mem_singleton]
        constructor
        · rintro (⟨s, -, -, ht⟩ | ⟨e', -, ht, -⟩)
          · exact ht.symm
          · exact absurd ht.symm hx
        · exact fun ht => .inl ⟨x, ht ▸ hedge, rfl, ht.symm⟩
      simp only [Option.map_some, Node.without, Option.some.injEq, Node.mk.injEq,
        true_and, and_true]
      exact ⟨List.filter_congr fun y hy => decide_eq_decide.2 (not_congr (hsource y hy)),
        List.filter_congr fun e he => decide_eq_decide.2 (not_congr (htarget e he))⟩

/-- A removal leaves the graph without the operator, and nothing else is different. -/
theorem runs_remove_without (h : g.Linked) (hroot : id ≠ root) {n : Node γ}
    (hn : g.node? id = some n) :
    (remove id).Runs g fun op g' => op = n.operator ∧ g' = g.without [id] := by
  have hid : g.contains id = true := by simp [contains, hn]
  have hpreceding : g.preceding id = n.preceding := by simp [preceding, hn]
  have hsucceeding : g.succeeding id = n.succeeding := by simp [succeeding, hn]
  have hsources (s : OperatorId) (hs : s ∈ n.preceding) : g.contains s = true := by
    obtain ⟨e, he, -⟩ := (h s id).1 (hpreceding ▸ hs)
    exact contains_of_mem_succeeding he
  unfold remove
  rw [if_neg hroot]
  refine Edit.runs_bind.2 (runs_require hid fun n' hsame => ?_)
  obtain rfl := Option.some.inj (hn.symm.trans hsame)
  refine (runs_forM_disconnect fun s hs => ⟨hsources s hs, hid⟩).bind fun _ g₁ h₁ => ?_
  subst h₁
  refine (runs_forM_disconnect fun e he => ?_).bind fun _ g₂ h₂ => ?_
  · rw [contains_severed, contains_severed]
    exact ⟨hid, h.contains_target (hsucceeding ▸ he)⟩
  subst h₂
  refine Edit.runs_bind.2 (Edit.runs_modify (Edit.runs_pure.2 ⟨rfl, ?_⟩))
  refine ext_node? (by simp [length_severed]) fun x => ?_
  rw [node?_emptied, severed_append, ← hpreceding, ← hsucceeding]
  by_cases hx : x = id
  · simp [hx, node?_without]
  · rw [if_neg hx]
    exact node?_severed_pairsAt h hx

end Graph

end QuadAlgebra
