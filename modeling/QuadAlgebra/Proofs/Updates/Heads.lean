import QuadAlgebra.Proofs.Relocation.Results

/-!
# Changes above a pattern

The plan of an update begins with its changes: below the result stands a deletion or an insertion
for each template, and below that the template. A graph with these operators only (`Graph.Headed`)
grows by one change at a time (`Graph.Headed.withChange`), and the first of its templates is a site
for a pattern (`Graph.Headed.site`). What the pattern feeds to the first template is then fed to the
others (`Graph.reading`).
-/

namespace QuadAlgebra

/-- A change of an update: the deletion or insertion of the quads of a template. -/
structure Change where
  inserting : Bool
  template : List QuadPattern

namespace Change

/-- What a change does with the quads of its template. -/
def operator (c : Change) : Operator Plan := if c.inserting then .insert else .delete

theorem operator_kind_ne (c : Change) : c.operator.kind ≠ .result := by
  unfold operator
  split <;> exact Kind.noConfusion

end Change

namespace Graph

/-! ## Inputs on one operand -/

section Inputs

variable {α : Type}

/-- An element that comes before no other is placed at the front. -/
theorem placeFromRight_of_not_lt (compare : α → α → Ordering) {a : α} {l : List α}
    (h : ∀ b ∈ l, compare a b ≠ .lt) : placeFromRight compare a l = a :: l := by
  cases l with
  | nil => rfl
  | cons b rest => rw [placeFromRight, if_neg (h b List.mem_cons_self)]

/-- A list in which no element comes before another stays as it is. -/
theorem stableSort_of_not_lt (compare : α → α → Ordering) {l : List α}
    (h : ∀ a ∈ l, ∀ b ∈ l, compare a b ≠ .lt) : stableSort compare l = l := by
  suffices ∀ sorted rest, sorted.reverse ++ rest = l →
      rest.foldl (fun sorted a => placeFromRight compare a sorted) sorted = l.reverse by
    rw [stableSort, this [] l rfl, List.reverse_reverse]
  intro sorted rest hl
  induction rest generalizing sorted with
  | nil => rw [← hl, List.append_nil, List.reverse_reverse]; rfl
  | cons a rest ih =>
      have hfirst : placeFromRight compare a sorted = a :: sorted :=
        placeFromRight_of_not_lt compare fun b hb =>
          h a (by simp [← hl]) b (by simp [← hl, hb])
      rw [List.foldl_cons, hfirst]
      exact ih (a :: sorted) (by simp [← hl])

/-- Nothing is taken out of a list without duplicates. -/
theorem distinctOf_of_nodup [DecidableEq α] {l : List α} (h : l.Nodup) : distinctOf l = l := by
  suffices ∀ seen rest : List α, seen.reverse ++ rest = l →
      rest.foldl (fun seen a => if seen.contains a then seen else a :: seen) seen = l.reverse by
    rw [distinctOf, this [] l rfl, List.reverse_reverse]
  intro seen rest hl
  induction rest generalizing seen with
  | nil => rw [← hl, List.append_nil, List.reverse_reverse]; rfl
  | cons a rest ih =>
      have hnew : seen.contains a = false := by
        rw [← Bool.not_eq_true, List.contains_iff_mem]
        intro hmem
        rw [← hl] at h
        exact (List.nodup_append.1 h).2.2 a (List.mem_reverse.2 hmem) a List.mem_cons_self rfl
      rw [List.foldl_cons, hnew]
      exact ih (a :: seen) (by simp [← hl])

variable {γ : Type} {g : Graph γ}

/-- An operator that reads each of its producers once, on its first operand. -/
theorem inputs_eq_map {t : Nat} {l : List Nat} (hnodup : l.Nodup) (hpreceding : g.preceding t = l)
    (hbetween : ∀ x ∈ l, g.edgesBetween x t = [⟨x, 0, false⟩]) :
    g.inputs t = l.map fun x => ⟨x, 0, false⟩ := by
  rw [inputs, hpreceding, distinctOf_of_nodup hnodup, List.flatMap_congr hbetween,
    ← List.map_eq_flatMap]
  refine stableSort_of_not_lt _ fun a ha b hb => ?_
  obtain ⟨x, -, rfl⟩ := List.mem_map.1 ha
  obtain ⟨y, -, rfl⟩ := List.mem_map.1 hb
  exact Ordering.noConfusion

end Inputs

/-! ## Changes -/

/-- A change below the result, with its template. -/
def withChange (g : Graph Plan) (c : Change) : Graph Plan :=
  (((g.withOperator c.operator).withEdge g.slots.length ⟨1, 0, false⟩).withOperator
    (.construct c.template)).withEdge (g.slots.length + 1) ⟨g.slots.length, 0, false⟩

/-- A change and its template stand in a graph, and nothing feeds the template. -/
structure HasHead (g : Graph Plan) (id : Nat) (c : Change) : Prop where
  two_le : 2 ≤ id
  lt : id + 1 < g.slots.length
  change : g.operator? id = some c.operator
  template : g.operator? (id + 1) = some (.construct c.template)
  succeeding : g.succeeding id = [⟨1, 0, false⟩]
  succeeding_template : g.succeeding (id + 1) = [⟨id, 0, false⟩]
  preceding : g.preceding id = [id + 1]
  free : g.preceding (id + 1) = []

/-- A graph that consists of the result of an update and of some changes, told by their numbers. -/
structure Headed (g : Graph Plan) (heads : List (Nat × Change)) : Prop where
  two_le : 2 ≤ g.slots.length
  live : ∀ id : Nat, g.contains id = true ↔ id < g.slots.length
  linked : g.Linked
  root : g.operator? Graph.root = some .root
  root_free : g.succeeding Graph.root = [] ∧ g.preceding Graph.root = []
  descending : ∀ id, ∀ e ∈ g.succeeding id, e.target < id
  result : g.operator? 1 = some (.result .update)
  results : ∀ (id : Nat) op, g.operator? id = some op → op.kind = .result → id = 1
  reads : g.preceding 1 = heads.map Prod.fst
  nodup : (heads.map Prod.fst).Nodup
  heads : ∀ head ∈ heads, g.HasHead head.1 head.2

section WithChange

variable {g : Graph Plan} (hlive : ∀ id : Nat, g.contains id = true ↔ id < g.slots.length)
  (htwo : 2 ≤ g.slots.length) (c : Change)

@[simp] theorem length_withChange : (g.withChange c).slots.length = g.slots.length + 2 := by
  rw [withChange, length_withEdge, length_withOperator, length_withEdge, length_withOperator]

/-- A change and its template get the next two numbers. -/
theorem operator?_withChange (x : Nat) : (g.withChange c).operator? x =
    if x = g.slots.length + 1 then some (.construct c.template)
    else if x = g.slots.length then some c.operator else g.operator? x := by
  rw [withChange, operator?_withEdge, operator?_withOperator, length_withEdge,
    length_withOperator, operator?_withEdge, operator?_withOperator]

include hlive

/-- The operators with a change added are still all below the size. -/
theorem contains_withChange (x : Nat) :
    (g.withChange c).contains x = true ↔ x < (g.withChange c).slots.length := by
  rw [length_withChange, withChange, contains_withEdge, contains_withOperator, length_withEdge,
    length_withOperator, contains_withEdge, contains_withOperator, hlive]
  change (x : Nat) = g.slots.length + 1 ∨ (x : Nat) = g.slots.length ∨ x < g.slots.length ↔
    x < g.slots.length + 2
  omega

include htwo

theorem contains_first :
    (g.withOperator c.operator).contains g.slots.length = true ∧
      (g.withOperator c.operator).contains 1 = true :=
  ⟨(contains_withOperator _).2 (.inl rfl), (contains_withOperator _).2 (.inr ((hlive 1).2 htwo))⟩

theorem contains_second :
    (((g.withOperator c.operator).withEdge g.slots.length ⟨1, 0, false⟩).withOperator
        (.construct c.template)).contains (g.slots.length + 1) = true ∧
      (((g.withOperator c.operator).withEdge g.slots.length ⟨1, 0, false⟩).withOperator
        (.construct c.template)).contains g.slots.length = true := by
  refine ⟨(contains_withOperator _).2 (.inl (by simp)), (contains_withOperator _).2 (.inr ?_)⟩
  rw [contains_withEdge]
  exact (contains_first hlive htwo c).1

/-- The edges of a change that is added are known to both sides. -/
theorem linked_withChange (h : g.Linked) : (g.withChange c).Linked :=
  ((h.withOperator.withEdge (contains_first hlive htwo c).1
    (contains_first hlive htwo c).2).withOperator.withEdge
      (contains_second hlive htwo c).1 (contains_second hlive htwo c).2)

/-- The template feeds the change, and the change feeds the result. -/
theorem succeeding_withChange (x : Nat) : (g.withChange c).succeeding x =
    if x = g.slots.length + 1 then [⟨g.slots.length, 0, false⟩]
    else if x = g.slots.length then [⟨1, 0, false⟩] else g.succeeding x := by
  have hnone {x : Nat} (hx : g.slots.length ≤ x) : g.succeeding x = [] := by
    rw [succeeding, node?_eq_none hx]
    rfl
  rw [withChange, succeeding_withEdge (contains_second hlive htwo c).1, succeeding_withOperator,
    succeeding_withEdge (contains_first hlive htwo c).1, succeeding_withOperator]
  split
  · next hx =>
    obtain rfl : x = g.slots.length + 1 := hx
    rw [if_neg (Nat.succ_ne_self _), hnone (Nat.le_succ _)]
    rfl
  · split
    · next hx =>
      obtain rfl : x = g.slots.length := hx
      rw [hnone (Nat.le_refl _)]
      rfl
    · rfl

/-- The change is the last input of the result. -/
theorem preceding_withChange (x : Nat) : (g.withChange c).preceding x =
    if x = g.slots.length then [g.slots.length + 1]
    else if x = 1 then g.preceding 1 ++ [g.slots.length] else g.preceding x := by
  rw [withChange, preceding_withEdge (contains_second hlive htwo c).2, preceding_withOperator,
    preceding_withEdge (contains_first hlive htwo c).2, preceding_withOperator]
  split
  · next hx =>
    obtain rfl : x = g.slots.length := hx
    rw [if_neg (Nat.ne_of_gt htwo), preceding, node?_eq_none (Nat.le_refl _)]
    rfl
  · split
    · next hx => rw [hx]
    · rfl

include hlive htwo in
/-- A head that is there stays as it is when another change is added. -/
theorem HasHead.withChange {id : Nat} {c' : Change} (hh : g.HasHead id c') :
    (g.withChange c).HasHead id c' := by
  have hlt := hh.lt
  have hge := hh.two_le
  have hid : id ≠ g.slots.length + 1 ∧ id ≠ g.slots.length := by omega
  have hid' : id + 1 ≠ g.slots.length + 1 ∧ id + 1 ≠ g.slots.length := by omega
  refine ⟨hge, ?_, ?_, ?_, ?_, ?_, ?_, ?_⟩
  · rw [length_withChange]
    omega
  · rw [operator?_withChange, if_neg hid.1, if_neg hid.2, hh.change]
  · rw [operator?_withChange, if_neg hid'.1, if_neg hid'.2, hh.template]
  · rw [succeeding_withChange hlive htwo, if_neg hid.1, if_neg hid.2, hh.succeeding]
  · rw [succeeding_withChange hlive htwo, if_neg hid'.1, if_neg hid'.2, hh.succeeding_template]
  · rw [preceding_withChange hlive htwo, if_neg hid.2, if_neg (by omega), hh.preceding]
  · rw [preceding_withChange hlive htwo, if_neg hid'.2, if_neg (by omega), hh.free]

include hlive htwo in
/-- A change that is added is a head. -/
theorem hasHead_withChange : (g.withChange c).HasHead g.slots.length c := by
  have hself : g.slots.length ≠ g.slots.length + 1 := Nat.ne_of_lt (Nat.lt_succ_self _)
  refine ⟨htwo, ?_, ?_, ?_, ?_, ?_, ?_, ?_⟩
  · rw [length_withChange]
    omega
  · rw [operator?_withChange, if_neg hself, if_pos rfl]
  · rw [operator?_withChange, if_pos rfl]
  · rw [succeeding_withChange hlive htwo, if_neg hself, if_pos rfl]
  · rw [succeeding_withChange hlive htwo, if_pos rfl]
  · rw [preceding_withChange hlive htwo, if_pos rfl]
  · rw [preceding_withChange hlive htwo, if_neg hself.symm, if_neg (by omega),
      preceding, node?_eq_none (Nat.le_succ _)]
    rfl

end WithChange

namespace Headed

variable {g : Graph Plan} {heads : List (Nat × Change)}

/-- To start with, there is the result only. -/
theorem start : Headed (Graph.empty.withOperator (.result .update)) [] where
  two_le := Nat.le_refl 2
  live id := by
    rcases id with _ | _ | id
    · exact ⟨fun _ => Nat.zero_lt_two, fun _ => rfl⟩
    · exact ⟨fun _ => Nat.one_lt_two, fun _ => rfl⟩
    · exact ⟨fun h => absurd h Bool.false_ne_true,
        fun h => absurd h (Nat.not_lt.2 (Nat.le_add_left 2 id))⟩
  linked x y := by
    rcases x with _ | _ | x <;> rcases y with _ | _ | y <;>
      exact ⟨fun h => absurd h List.not_mem_nil, fun ⟨_, h, _⟩ => absurd h List.not_mem_nil⟩
  root := rfl
  root_free := ⟨rfl, rfl⟩
  descending id e he := by
    rcases id with _ | _ | id <;> cases he
  result := rfl
  results id op hop hkind := by
    rcases id with _ | _ | id
    · obtain rfl := Option.some.inj hop
      cases hkind
    · rfl
    · cases hop
  reads := rfl
  nodup := List.nodup_nil
  heads _ h := absurd h List.not_mem_nil

/-- A graph of changes gets one change more. -/
theorem withChange (h : g.Headed heads) (c : Change) :
    (g.withChange c).Headed (heads ++ [(g.slots.length, c)]) := by
  have htwo := h.two_le
  have hold {x : Nat} (hx : x < g.slots.length) : x ≠ g.slots.length + 1 ∧ x ≠ g.slots.length := by
    omega
  have hroot := hold (x := Graph.root) (Nat.lt_of_lt_of_le Nat.zero_lt_two htwo)
  have hone := hold (x := 1) htwo
  refine ⟨?_, contains_withChange h.live c, linked_withChange h.live htwo c h.linked, ?_, ⟨?_, ?_⟩,
    fun id e he => ?_, ?_, fun id op hop hkind => ?_, ?_, ?_, fun head hhead => ?_⟩
  · rw [length_withChange]
    exact Nat.le_add_right_of_le htwo
  · rw [operator?_withChange, if_neg hroot.1, if_neg hroot.2, h.root]
  · rw [succeeding_withChange h.live htwo, if_neg hroot.1, if_neg hroot.2, h.root_free.1]
  · rw [preceding_withChange h.live htwo, if_neg hroot.2,
      if_neg (show Graph.root ≠ 1 from Nat.zero_ne_one), h.root_free.2]
  · rw [succeeding_withChange h.live htwo] at he
    split at he
    · next hid =>
      obtain rfl := List.mem_singleton.1 he
      exact hid ▸ Nat.lt_succ_self _
    · split at he
      · next hid =>
        obtain rfl := List.mem_singleton.1 he
        exact hid ▸ htwo
      · exact h.descending id e he
  · rw [operator?_withChange, if_neg hone.1, if_neg hone.2, h.result]
  · rw [operator?_withChange] at hop
    split at hop
    · obtain rfl := Option.some.inj hop
      cases hkind
    · split at hop
      · obtain rfl := Option.some.inj hop
        exact absurd hkind c.operator_kind_ne
      · exact h.results id op hop hkind
  · rw [preceding_withChange h.live htwo, if_neg hone.2, if_pos rfl, h.reads, List.map_append]
    rfl
  · rw [List.map_append]
    refine h.nodup.append (List.nodup_singleton _) fun x hx hx' => ?_
    obtain ⟨head, hhead, rfl⟩ := List.mem_map.1 hx
    have hlt := (h.heads head hhead).lt
    have heq : head.1 = g.slots.length := List.mem_singleton.1 hx'
    omega
  · rcases List.mem_append.1 hhead with hhead | hhead
    · exact (h.heads _ hhead).withChange h.live h.two_le c
    · obtain rfl := List.mem_singleton.1 hhead
      exact hasHead_withChange h.live htwo c

/-- A pattern can be planned below the template of a change. -/
def site (h : g.Headed heads) {id : Nat} {c : Change} (hhead : g.HasHead id c) : Site where
  base := g
  target := id + 1
  target_pos := Nat.succ_pos id
  target_lt := hhead.lt
  live := h.live
  linked := h.linked
  root := h.root
  root_free := h.root_free
  target_free := hhead.free
  descending := h.descending

end Headed

/-! ## Sharing -/

/-- Lets an operator read some more producers, each on its first operand. -/
def reading {γ : Type} (g : Graph γ) (t : Nat) (l : List Nat) : Graph γ :=
  l.foldl (fun g x => g.withEdge x ⟨t, 0, false⟩) g

section Reading

variable {γ : Type} {g : Graph γ} {t : Nat} {l : List Nat}

@[simp] theorem operator?_reading (x : OperatorId) :
    (g.reading t l).operator? x = g.operator? x := by
  induction l generalizing g with
  | nil => rfl
  | cons y rest ih => exact ih.trans (operator?_withEdge x)

@[simp] theorem contains_reading (x : OperatorId) : (g.reading t l).contains x = g.contains x := by
  induction l generalizing g with
  | nil => rfl
  | cons y rest ih => exact ih.trans (contains_withEdge x)

variable (hl : ∀ x ∈ l, g.contains x = true)

include hl

/-- Each operator of the list gets one edge more, to the target. -/
theorem succeeding_reading (hnodup : l.Nodup) (x : OperatorId) : (g.reading t l).succeeding x =
    g.succeeding x ++ if x ∈ l then [⟨t, 0, false⟩] else [] := by
  induction l generalizing g with
  | nil => exact (List.append_nil _).symm
  | cons y rest ih =>
      have hy := hl y List.mem_cons_self
      have hrest : ∀ x ∈ rest, (g.withEdge y ⟨t, 0, false⟩).contains x = true := fun x hx => by
        rw [contains_withEdge]
        exact hl x (List.mem_cons_of_mem _ hx)
      obtain ⟨hnew, hnodup⟩ := List.nodup_cons.1 hnodup
      rw [reading, List.foldl_cons]
      refine (ih hrest hnodup).trans ?_
      rw [succeeding_withEdge hy]
      by_cases hxy : x = y
      · subst hxy
        rw [if_pos rfl, if_neg hnew, if_pos List.mem_cons_self, List.append_nil]
      · simp [hxy]

variable (ht : g.contains t = true)

include ht

/-- The target records all operators of the list. -/
theorem preceding_reading (x : OperatorId) : (g.reading t l).preceding x =
    if x = t then g.preceding t ++ l else g.preceding x := by
  induction l generalizing g with
  | nil =>
      rw [List.append_nil]
      split
      · next hx => rw [hx]; rfl
      · rfl
  | cons y rest ih =>
      have hrest : ∀ x ∈ rest, (g.withEdge y ⟨t, 0, false⟩).contains x = true := fun x hx => by
        rw [contains_withEdge]
        exact hl x (List.mem_cons_of_mem _ hx)
      have htarget : (g.withEdge y ⟨t, 0, false⟩).contains t = true := by
        rw [contains_withEdge, ht]
      rw [reading, List.foldl_cons]
      refine (ih hrest htarget).trans ?_
      rw [preceding_withEdge ht, preceding_withEdge ht]
      dsimp only
      split
      · rw [if_pos rfl, List.append_assoc]
        rfl
      · rfl

theorem inputs_reading_of_ne {x : OperatorId} (hx : x ≠ t) :
    (g.reading t l).inputs x = g.inputs x := by
  induction l generalizing g with
  | nil => rfl
  | cons y rest ih =>
      have hrest : ∀ x ∈ rest, (g.withEdge y ⟨t, 0, false⟩).contains x = true := fun x hx => by
        rw [contains_withEdge]
        exact hl x (List.mem_cons_of_mem _ hx)
      have htarget : (g.withEdge y ⟨t, 0, false⟩).contains t = true := by
        rw [contains_withEdge, ht]
      exact (ih hrest htarget).trans (inputs_withEdge_of_ne (hl y List.mem_cons_self) ht hx)

/-- An operator that nothing has fed reads just the given producers. -/
theorem inputs_reading_self (hg : g.Linked) (hfree : g.preceding t = []) (hnodup : l.Nodup) :
    (g.reading t l).inputs t = l.map fun x => ⟨x, 0, false⟩ := by
  have hpreceding : (g.reading t l).preceding t = l := by
    rw [preceding_reading hl ht, if_pos rfl, hfree, List.nil_append]
  refine inputs_eq_map hnodup hpreceding fun x hx => ?_
  have hnone : (g.succeeding x).filter (·.target == t) = [] := by
    refine List.filter_eq_nil_iff.2 fun e he htarget => ?_
    have hmem := (hg x t).2 ⟨e, he, beq_iff_eq.1 htarget⟩
    rw [hfree] at hmem
    cases hmem
  rw [edgesBetween, succeeding_reading hl hnodup, if_pos hx, List.filter_append, hnone]
  simp

end Reading

end Graph

/-! ## Several readers -/

namespace Graph

/-- Edges that are read by a target are known to both sides. -/
theorem Linked.reading {γ : Type} {g : Graph γ} (hg : g.Linked) {t : Nat} {l : List Nat}
    (hl : ∀ x ∈ l, g.contains x = true) (ht : g.contains t = true) : (g.reading t l).Linked := by
  induction l generalizing g with
  | nil => exact hg
  | cons y rest ih =>
      refine ih (hg.withEdge (hl y List.mem_cons_self) ht) (fun x hx => ?_) ?_
      · rw [contains_withEdge]
        exact hl x (List.mem_cons_of_mem _ hx)
      · rw [contains_withEdge, ht]

/-- Lets some operators read the same producers. -/
def sharing {γ : Type} (g : Graph γ) (ts l : List Nat) : Graph γ :=
  ts.foldl (fun g t => g.reading t l) g

section Sharing

variable {γ : Type} {g : Graph γ} {ts l : List Nat}

@[simp] theorem operator?_sharing (x : OperatorId) :
    (g.sharing ts l).operator? x = g.operator? x := by
  induction ts generalizing g with
  | nil => rfl
  | cons t rest ih => exact ih.trans (operator?_reading x)

/-- Operators that are there, and that nothing has fed so far. -/
structure Free (g : Graph γ) (ts : List Nat) : Prop where
  nodup : ts.Nodup
  contains : ∀ t ∈ ts, g.contains t = true
  preceding : ∀ t ∈ ts, g.preceding t = []

/-- Once one target has been fed the others are still free. -/
theorem Free.tail {t : Nat} (h : g.Free (t :: ts)) (hl : ∀ x ∈ l, g.contains x = true) :
    (g.reading t l).Free ts := by
  obtain ⟨hnew, hnodup⟩ := List.nodup_cons.1 h.nodup
  refine ⟨hnodup, fun x hx => ?_, fun x hx => ?_⟩
  · rw [contains_reading]
    exact h.contains x (List.mem_cons_of_mem _ hx)
  · rw [preceding_reading hl (h.contains t List.mem_cons_self),
      if_neg fun he : x = t => hnew (he ▸ hx),
      h.preceding x (List.mem_cons_of_mem _ hx)]

variable (hl : ∀ x ∈ l, g.contains x = true) (hts : g.Free ts)

include hl hts

/-- Nobody else gets new inputs when inputs are shared. -/
theorem inputs_sharing_of_not_mem {x : OperatorId} (hx : x ∉ ts) :
    (g.sharing ts l).inputs x = g.inputs x := by
  induction ts generalizing g with
  | nil => rfl
  | cons t rest ih =>
      refine (ih (fun y hy => ?_) (hts.tail hl) fun hmem => hx (List.mem_cons_of_mem _ hmem)).trans
        (inputs_reading_of_ne hl (hts.contains t List.mem_cons_self) fun he =>
          hx (he ▸ List.mem_cons_self))
      rw [contains_reading, hl y hy]

/-- Each target reads all operators of the list when inputs are shared. -/
theorem inputs_sharing_of_mem (hg : g.Linked) (hnodup : l.Nodup) {t : Nat} (ht : t ∈ ts) :
    (g.sharing ts l).inputs t = l.map fun x => ⟨x, 0, false⟩ := by
  induction ts generalizing g with
  | nil => cases ht
  | cons t' rest ih =>
      have ht' := hts.contains t' List.mem_cons_self
      have hl' : ∀ x ∈ l, (g.reading t' l).contains x = true := fun x hx => by
        rw [contains_reading, hl x hx]
      by_cases hmem : t ∈ rest
      · exact ih hl' (hts.tail hl) (hg.reading hl ht') hmem
      · obtain rfl : t = t' := (List.mem_cons.1 ht).resolve_right hmem
        exact (inputs_sharing_of_not_mem hl' (hts.tail hl) hmem).trans
          (inputs_reading_self hl ht' hg (hts.preceding t List.mem_cons_self) hnodup)

end Sharing

end Graph

namespace Site.Copies

variable {s : Site} {γ : Type} {g h : Graph γ}

/-- A copy stays one if an operator outside of it reads from it. -/
theorem reading (hc : s.Copies g h) {t : Nat} {l : List Nat}
    (hl : ∀ x ∈ l, ∃ k, x = s.place k ∧ h.contains x = true)
    (ht : h.contains t = true) (hout : ∀ k, t ≠ s.place k) : s.Copies g (h.reading t l) := by
  induction l generalizing h with
  | nil => exact hc
  | cons y rest ih =>
      obtain ⟨k, rfl, hy⟩ := hl y List.mem_cons_self
      refine ih (hc.withEdge hy ht hout) (fun x hx => ?_) ?_
      · obtain ⟨k', hk', hx⟩ := hl x (List.mem_cons_of_mem _ hx)
        exact ⟨k', hk', by rw [Graph.contains_withEdge, hx]⟩
      · rw [Graph.contains_withEdge, ht]

/-- Sharing the inputs of one target with others leaves the copy of a pattern as it is. -/
theorem sharing (hc : s.Copies g h) {ts l : List Nat}
    (hl : ∀ x ∈ l, ∃ k, x = s.place k ∧ h.contains x = true)
    (hts : ∀ t ∈ ts, h.contains t = true ∧ ∀ k, t ≠ s.place k) :
    s.Copies g (h.sharing ts l) := by
  induction ts generalizing h with
  | nil => exact hc
  | cons t rest ih =>
      obtain ⟨ht, hout⟩ := hts t List.mem_cons_self
      refine ih (hc.reading hl ht hout) (fun x hx => ?_) fun t' ht' => ?_
      · obtain ⟨k, hk, hx⟩ := hl x hx
        exact ⟨k, hk, by rw [Graph.contains_reading, hx]⟩
      · rw [Graph.contains_reading]
        exact hts t' (List.mem_cons_of_mem _ ht')

end Site.Copies

end QuadAlgebra
