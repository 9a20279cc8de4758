import QuadAlgebra.Proofs.Planning.Growth

/-!
# Plans inside larger plans

A pattern can be planned on its own, below the result of an otherwise empty plan, or below some
operator of a larger plan. The operators that are drawn are the same, in the same order; only their
numbers differ. A site says where they stand in the larger plan, and a graph holds another one at a
site if it looks like it there and like what it was before everywhere else (`Site.Holds`). Holding
survives a new operator (`Site.Holds.withOperator`) and a new edge (`Site.Holds.withEdge`).
-/

namespace QuadAlgebra

/-! ## Sites -/

/-- A graph below one of whose operators something is going to be drawn. -/
structure Site where
  base : Graph Plan
  /-- The operator that takes the place of the result. -/
  target : Nat
  target_pos : 0 < target
  target_lt : target < base.slots.length
  live : ∀ id, base.contains id = true ↔ id < base.slots.length
  linked : base.Linked
  root : base.operator? Graph.root = some .root
  /-- Nothing is connected to the root or feeds the target so far. -/
  root_free : base.succeeding Graph.root = [] ∧ base.preceding Graph.root = []
  target_free : base.preceding target = []
  /-- What is there already leads to smaller numbers. -/
  descending : ∀ id, ∀ e ∈ base.succeeding id, e.target < id

namespace Site

variable (s : Site)

/-- The number of the first operator that is drawn. -/
def first : Nat := s.base.slots.length

/-- Where an operator of a plan of its own stands: the root is the root, the result is the
target, and all others come after what is there already. -/
def place : Nat → Nat
  | 0 => 0
  | 1 => s.target
  | k + 2 => s.first + k

def placeEdge (e : Edge) : Edge := { e with target := s.place e.target }

def placeInput (i : Input) : Input := { i with source := s.place i.source }

variable {s}

@[simp] theorem place_one : s.place 1 = s.target := rfl

theorem place_of_two_le {id : Nat} (h : 2 ≤ id) : s.place id + 2 = s.first + id := by
  obtain ⟨k, rfl⟩ : ∃ k, id = k + 2 := ⟨id - 2, by omega⟩
  rw [place]
  omega

theorem first_le_place {id : Nat} (h : 2 ≤ id) : s.first ≤ s.place id := by
  have := place_of_two_le (s := s) h
  omega

theorem place_injective : Function.Injective s.place := by
  intro a b h
  have htarget := s.target_pos
  have hlt : s.target < s.first := s.target_lt
  rcases a with _ | _ | a <;> rcases b with _ | _ | b <;> simp only [place] at h <;> omega

theorem place_inj {a b : Nat} : s.place a = s.place b ↔ a = b := place_injective.eq_iff

theorem placeEdge_injective : Function.Injective s.placeEdge := by
  intro a b h
  obtain ⟨target, operand, feedback⟩ := a
  obtain ⟨target', operand', feedback'⟩ := b
  simp only [placeEdge, Edge.mk.injEq] at h
  rw [Edge.mk.injEq]
  exact ⟨place_injective h.1, h.2⟩

/-! ## Holding a plan -/

variable (s)

/-- A graph that holds another one at a site. -/
structure Holds (g h : Graph Plan) : Prop where
  two_le : 2 ≤ g.slots.length
  length : h.slots.length + 2 = s.first + g.slots.length
  live : ∀ id : Nat, g.contains id = true ↔ id < g.slots.length
  live' : ∀ id : Nat, h.contains id = true ↔ id < h.slots.length
  linked : g.Linked
  linked' : h.Linked
  nodup : ∀ x, (g.succeeding x).Nodup
  /-- The one result is the operator whose place the target takes. -/
  result : g.operator? 1 = some (.result (.select []))
  result_iff : ∀ (id : Nat) op, g.operator? id = some op → (op.kind = .result ↔ id = 1)
  result_unread : g.succeeding 1 = []
  /-- Nothing feeds the root, and what feeds the result does so on its first operand. -/
  target_ne : ∀ x, ∀ e ∈ g.succeeding x, e.target ≠ 0
  into_result : ∀ x, ∀ e ∈ g.succeeding x, e.target = 1 → e.operand = 0 ∧ e.feedback = false
  operator? : ∀ id : Nat, id ≠ 1 → h.operator? (s.place id) = g.operator? id
  succeeding : ∀ id : Nat, id ≠ 1 → h.succeeding (s.place id) = (g.succeeding id).map s.placeEdge
  preceding : ∀ id : Nat, h.preceding (s.place id) = (g.preceding id).map s.place
  /-- Everything else is as it was. -/
  operator?_old : ∀ id : Nat, id < s.first → h.operator? id = s.base.operator? id
  succeeding_old : ∀ id : Nat, id < s.first → id ≠ 0 → h.succeeding id = s.base.succeeding id
  preceding_old : ∀ id : Nat, id < s.first → id ≠ s.target → h.preceding id = s.base.preceding id

variable {s}

namespace Holds

variable {g h : Graph Plan}

theorem contains_place (hh : s.Holds g h) {id : Nat} :
    h.contains (s.place id) = true ↔ g.contains id = true := by
  have hlength := hh.length
  have hlt : s.target < s.first := s.target_lt
  have htwo := hh.two_le
  rw [hh.live', hh.live]
  rcases id with _ | _ | k <;> simp only [place] <;> omega

theorem withOperator (hh : s.Holds g h) {op : Operator Plan} (hop : op.kind ≠ .result) :
    s.Holds (g.withOperator op) (h.withOperator op) := by
  have hnew : s.place g.slots.length = h.slots.length := by
    have hplace := place_of_two_le (s := s) hh.two_le
    have hlength := hh.length
    omega
  have hfirst : s.first ≤ h.slots.length := hnew ▸ first_le_place hh.two_le
  refine ⟨?_, ?_, fun id => ?_, fun id => ?_, hh.linked.withOperator, hh.linked'.withOperator,
    fun x => ?_, ?_, fun id op' hop' => ?_, ?_, fun x e he => ?_, fun x e he => ?_,
    fun id hid => ?_,
    fun id hid => ?_, fun id => ?_, fun id hid => ?_, fun id hid hne => ?_, fun id hid hne => ?_⟩
  · rw [Graph.length_withOperator]
    exact Nat.le_succ_of_le hh.two_le
  · rw [Graph.length_withOperator, Graph.length_withOperator]
    have hlength := hh.length
    omega
  · rw [Graph.contains_withOperator, hh.live, Graph.length_withOperator, or_comm,
      Nat.lt_succ_iff_lt_or_eq]
  · rw [Graph.contains_withOperator, hh.live', Graph.length_withOperator, or_comm,
      Nat.lt_succ_iff_lt_or_eq]
  · rw [Graph.succeeding_withOperator]
    exact hh.nodup x
  · rw [Graph.operator?_withOperator, if_neg (Nat.ne_of_lt hh.two_le), hh.result]
  · rw [Graph.operator?_withOperator] at hop'
    split at hop'
    · next hid =>
      obtain rfl := Option.some.inj hop'
      exact ⟨fun he => absurd he hop,
        fun he => absurd (hid.symm.trans he) (Nat.ne_of_gt hh.two_le)⟩
    · exact hh.result_iff id op' hop'
  · rw [Graph.succeeding_withOperator, hh.result_unread]
  · exact hh.target_ne x e (by rwa [Graph.succeeding_withOperator] at he)
  · exact hh.into_result x e (by rwa [Graph.succeeding_withOperator] at he)
  · rw [Graph.operator?_withOperator, Graph.operator?_withOperator, hh.operator? id hid, ← hnew]
    simp only [place_inj]
  · rw [Graph.succeeding_withOperator, Graph.succeeding_withOperator, hh.succeeding id hid]
  · rw [Graph.preceding_withOperator, Graph.preceding_withOperator, hh.preceding id]
  · rw [Graph.operator?_withOperator, if_neg (Nat.ne_of_lt (Nat.lt_of_lt_of_le hid hfirst)),
      hh.operator?_old id hid]
  · rw [Graph.succeeding_withOperator, hh.succeeding_old id hid hne]
  · rw [Graph.preceding_withOperator, hh.preceding_old id hid hne]

/-- A new edge is drawn alike at both places. -/
theorem withEdge (hh : s.Holds g h) {a : Nat} {e : Edge} (ha : g.contains a = true)
    (hnew : e ∉ g.succeeding a) (hne : a ≠ 1) (ht : g.contains e.target = true)
    (hroot : e.target ≠ 0)
    (hresult : e.target = 1 → e.operand = 0 ∧ e.feedback = false) :
    s.Holds (g.withEdge a e) (h.withEdge (s.place a) (s.placeEdge e)) := by
  have ha' : h.contains (s.place a) = true := hh.contains_place.2 ha
  have ht' : h.contains (s.placeEdge e).target = true := hh.contains_place.2 ht
  have hplaced : ∀ id < s.first, id ≠ 0 → id ≠ s.place a := by
    intro id hid hpos he
    rcases Nat.lt_or_ge a 2 with hlt | hge
    · obtain rfl : a = 0 := by omega
      exact hpos he
    · exact absurd (he ▸ hid) (Nat.not_lt.2 (first_le_place hge))
  have hmem : ∀ {x e'}, e' ∈ (g.withEdge a e).succeeding x → e' ∈ g.succeeding x ∨ e' = e := by
    intro x e' he'
    rw [Graph.succeeding_withEdge ha] at he'
    split at he'
    · exact (List.mem_append.1 he').imp id List.mem_singleton.1
    · exact .inl he'
  refine ⟨?_, ?_, fun id => ?_, fun id => ?_, hh.linked.withEdge ha ht,
    hh.linked'.withEdge ha' ht', fun x => ?_, ?_, fun id op' hop' => ?_, ?_, fun x e' he' => ?_,
    fun x e' he' => ?_, fun id hid => ?_, fun id hid => ?_, fun id => ?_, fun id hid => ?_,
    fun id hid hpos => ?_, fun id hid hpos => ?_⟩
  · rw [Graph.length_withEdge]
    exact hh.two_le
  · rw [Graph.length_withEdge, Graph.length_withEdge, hh.length]
  · rw [Graph.contains_withEdge, Graph.length_withEdge, hh.live]
  · rw [Graph.contains_withEdge, Graph.length_withEdge, hh.live']
  · rw [Graph.succeeding_withEdge ha]
    split
    · next hx =>
      subst hx
      exact (hh.nodup x).append (List.nodup_singleton e) (by simpa using hnew)
    · exact hh.nodup x
  · rw [Graph.operator?_withEdge, hh.result]
  · exact hh.result_iff id op' (by rwa [Graph.operator?_withEdge] at hop')
  · rw [Graph.succeeding_withEdge ha, if_neg hne.symm, hh.result_unread]
  · rcases hmem he' with he' | rfl
    · exact hh.target_ne x e' he'
    · exact hroot
  · rcases hmem he' with he' | rfl
    · exact hh.into_result x e' he'
    · exact hresult
  · rw [Graph.operator?_withEdge, Graph.operator?_withEdge, hh.operator? id hid]
  · rw [Graph.succeeding_withEdge ha', Graph.succeeding_withEdge ha, hh.succeeding id hid]
    simp only [place_inj]
    split <;> simp
  · rw [Graph.preceding_withEdge ht', Graph.preceding_withEdge ht, hh.preceding id]
    simp only [placeEdge, place_inj]
    split <;> simp
  · rw [Graph.operator?_withEdge, hh.operator?_old id hid]
  · rw [Graph.succeeding_withEdge ha', if_neg (hplaced id hid hpos), hh.succeeding_old id hid hpos]
  · rw [Graph.preceding_withEdge ht', if_neg, hh.preceding_old id hid hpos]
    intro he
    rcases Nat.lt_or_ge e.target 2 with hlt | hge
    · have htarget : e.target = 1 :=
        Nat.le_antisymm (Nat.le_of_lt_succ hlt) (Nat.one_le_iff_ne_zero.2 hroot)
      exact hpos (he.trans (by rw [placeEdge, htarget, place_one]))
    · exact absurd (he ▸ hid) (Nat.not_lt.2 (first_le_place hge))

end Holds

end Site

end QuadAlgebra
