import Mathlib.Data.List.Basic
import Mathlib.Logic.Relation
import Mathlib.Tactic.Common
import QuadAlgebra.Plan.Traversal

/-!
# Depth-first walks reach what can be reached

A walk keeps two lists: what it has seen and what it has left. An operator that has been seen but
not left is open: the walk is still below it. A visit leaves the open operators as they are, and it
leaves an operator only when everything that the operator leads to has been seen (`Walk.Sound`,
`Walk.visit_sound`). At the end of a walk nothing is open, so what has been seen is closed under
the next step: it is exactly what can be reached (`mem_seen_foldl_visit_iff`).

If a rank rises along every step, an operator is left only after all that it leads to has been
left, so the list of operators left, latest first, is in topological order
(`Walk.visit_ordered`).

For graphs this says: the topological order lists every operator once and after its forward
producers (`topologicalOrder_spec`), it exists when the forward edges have a rank
(`topologicalOrder_of_rank`), and the loop members are the operators on a closed walk
(`mem_loopMembers_iff`).
-/

namespace QuadAlgebra

namespace Walk

variable {next : OperatorId → List OperatorId} {w : Walk}

/-! ## Open operators -/

/-- Seen, but not left yet. -/
def Open (w : Walk) (x : OperatorId) : Prop := x ∈ w.seen ∧ x ∉ w.left

/-- What holds of a walk between two visits. -/
structure Sound (next : OperatorId → List OperatorId) (w : Walk) : Prop where
  nodup : w.left.Nodup
  seen_of_left : ∀ x ∈ w.left, x ∈ w.seen
  closed : ∀ x ∈ w.left, ∀ y ∈ next x, y ∈ w.seen

/-- What a visit or a number of visits does to a walk. -/
structure Continues (next : OperatorId → List OperatorId) (w w' : Walk) : Prop where
  sound : Sound next w'
  seen_subset : ∀ x ∈ w.seen, x ∈ w'.seen
  open_iff : ∀ x, w'.Open x ↔ w.Open x

theorem Sound.start : Sound next Walk.start :=
  ⟨List.nodup_nil, fun _ h => absurd h List.not_mem_nil, fun _ h => absurd h List.not_mem_nil⟩

theorem Continues.refl (h : Sound next w) : Continues next w w :=
  ⟨h, fun _ hx => hx, fun _ => Iff.rfl⟩

theorem Continues.trans {w' w'' : Walk} (h : Continues next w w') (h' : Continues next w' w'') :
    Continues next w w'' :=
  ⟨h'.sound, fun x hx => h'.seen_subset x (h.seen_subset x hx),
    fun x => (h'.open_iff x).trans (h.open_iff x)⟩

/-! ## Visits -/

variable (universe' : List OperatorId)

/-- How many operators have not been seen. -/
def unseen (w : Walk) : Nat := (universe'.filter fun x => !w.seen.contains x).length

theorem unseen_le {w' : Walk} (h : ∀ x ∈ w.seen, x ∈ w'.seen) :
    unseen universe' w' ≤ unseen universe' w := by
  refine (List.Sublist.length_le (List.monotone_filter_right universe' fun x hx => ?_))
  simp only [Bool.not_eq_true', List.contains_eq_mem, decide_eq_false_iff_not] at hx ⊢
  exact fun hs => hx (h x hs)

theorem unseen_cons_lt {id : OperatorId} (hid : id ∈ universe') (hnew : id ∉ w.seen) :
    unseen universe' { w with seen := id :: w.seen } < unseen universe' w := by
  unfold unseen
  have hsub : (universe'.filter fun x => !(id :: w.seen).contains x) =
      (universe'.filter fun x => !w.seen.contains x).filter fun x => x != id := by
    rw [List.filter_filter]
    refine List.filter_congr fun x _ => ?_
    by_cases hx : x = id <;> simp [hx]
  rw [hsub]
  refine List.length_filter_lt_length_iff_exists.2 ⟨id, ?_, by simp⟩
  simp [List.mem_filter, hid, hnew]

/-- An operator is seen before its successors are visited. -/
theorem Sound.see (h : Sound next w) (id : OperatorId) :
    Sound next { w with seen := id :: w.seen } :=
  ⟨h.nodup, fun x hx => List.mem_cons_of_mem _ (h.seen_of_left x hx),
    fun x hx y hy => List.mem_cons_of_mem _ (h.closed x hx y hy)⟩

/-- An operator is left when all its successors have been seen. -/
theorem Continues.leave {below : Walk} {id : OperatorId} (hw : Sound next w) (hnew : id ∉ w.seen)
    (h : Continues next { w with seen := id :: w.seen } below)
    (hall : ∀ y ∈ next id, y ∈ below.seen) :
    Continues next w { below with left := id :: below.left } := by
  have hopen : below.Open id := (h.open_iff id).2
    ⟨List.mem_cons_self, fun hleft => hnew (hw.seen_of_left id hleft)⟩
  refine ⟨⟨?_, ?_, ?_⟩, ?_, ?_⟩
  · exact List.nodup_cons.2 ⟨hopen.2, h.sound.nodup⟩
  · exact List.forall_mem_cons.2 ⟨hopen.1, h.sound.seen_of_left⟩
  · exact List.forall_mem_cons.2 ⟨hall, h.sound.closed⟩
  · exact fun x hx => h.seen_subset x (List.mem_cons_of_mem _ hx)
  · intro x
    have hx := h.open_iff x
    simp only [Open, List.mem_cons, not_or] at hx ⊢
    by_cases hxid : x = id
    · subst hxid
      simp [hnew]
    · simpa [hxid] using hx

/-- Visits, one after the other, each of which sees its operator. -/
theorem foldl_continues {f : Walk → OperatorId → Walk} {depth : Nat}
    (hvisit : ∀ (w : Walk) (id : OperatorId), Sound next w → id ∈ universe' →
      unseen universe' w < depth → Continues next w (f w id) ∧ id ∈ (f w id).seen)
    (ids : List OperatorId) (w : Walk) (hw : Sound next w) (hids : ∀ id ∈ ids, id ∈ universe')
    (hdepth : unseen universe' w < depth) :
    Continues next w (ids.foldl f w) ∧ ∀ id ∈ ids, id ∈ (ids.foldl f w).seen := by
  induction ids generalizing w with
  | nil => exact ⟨.refl hw, fun _ h => absurd h List.not_mem_nil⟩
  | cons id rest ih =>
      obtain ⟨hid, hids⟩ := List.forall_mem_cons.1 hids
      obtain ⟨hstep, hmem⟩ := hvisit w id hw hid hdepth
      obtain ⟨hrest, hall⟩ := ih (f w id) hstep.sound hids
        (Nat.lt_of_le_of_lt (unseen_le universe' hstep.seen_subset) hdepth)
      exact ⟨hstep.trans hrest, List.forall_mem_cons.2 ⟨hrest.seen_subset id hmem, hall⟩⟩

/-- A visit whose depth exceeds the number of operators that have not been seen sees the operator
and keeps the walk sound. -/
theorem visit_sound (hnext : ∀ x, ∀ y ∈ next x, y ∈ universe') :
    ∀ (depth : Nat) (w : Walk) (id : OperatorId), Sound next w → id ∈ universe' →
      unseen universe' w < depth →
      Continues next w (visit next depth w id) ∧ id ∈ (visit next depth w id).seen := by
  intro depth
  induction depth with
  | zero => exact fun w id _ _ h => absurd h (Nat.not_lt_zero _)
  | succ depth ih =>
      intro w id hw hid hdepth
      by_cases hseen : id ∈ w.seen
      · rw [visit, if_pos (List.contains_iff_mem.2 hseen)]
        exact ⟨.refl hw, hseen⟩
      · rw [visit, if_neg fun h => hseen (List.contains_iff_mem.1 h)]
        have hless := unseen_cons_lt universe' hid hseen
        obtain ⟨hbelow, hall⟩ := foldl_continues universe' ih (next id) _ (hw.see id) (hnext id)
          (by omega)
        exact ⟨.leave hw hseen hbelow hall, hbelow.seen_subset id List.mem_cons_self⟩

/-- A visit of several operators, one after the other. -/
theorem foldl_visit_sound (hnext : ∀ x, ∀ y ∈ next x, y ∈ universe') (depth : Nat)
    (ids : List OperatorId) (w : Walk) (hw : Sound next w) (hids : ∀ id ∈ ids, id ∈ universe')
    (hdepth : unseen universe' w < depth) :
    Continues next w (ids.foldl (visit next depth) w) ∧
      ∀ id ∈ ids, id ∈ (ids.foldl (visit next depth) w).seen :=
  foldl_continues universe' (visit_sound universe' hnext depth) ids w hw hids hdepth

/-! ## What a walk reaches -/

/-- One step of a walk. -/
def Step (next : OperatorId → List OperatorId) (x y : OperatorId) : Prop := y ∈ next x

/-- Visits, one after the other, each of which sees only what it can reach. -/
theorem reaches_of_mem_seen_foldl {f : Walk → OperatorId → Walk}
    (hvisit : ∀ (w : Walk) (id x : OperatorId), x ∈ (f w id).seen →
      x ∈ w.seen ∨ Relation.ReflTransGen (Step next) id x)
    (ids : List OperatorId) (w : Walk) (x : OperatorId) (hx : x ∈ (ids.foldl f w).seen) :
    x ∈ w.seen ∨ ∃ id ∈ ids, Relation.ReflTransGen (Step next) id x := by
  induction ids generalizing w with
  | nil => exact Or.inl hx
  | cons id rest ih =>
      rcases ih (f w id) hx with h | ⟨y, hy, h⟩
      · exact (hvisit w id x h).imp_right fun h => ⟨id, List.mem_cons_self, h⟩
      · exact Or.inr ⟨y, List.mem_cons_of_mem _ hy, h⟩

/-- A visit sees nothing but what it can reach. -/
theorem reaches_of_mem_seen (depth : Nat) :
    ∀ (w : Walk) (id x : OperatorId), x ∈ (visit next depth w id).seen →
      x ∈ w.seen ∨ Relation.ReflTransGen (Step next) id x := by
  induction depth with
  | zero => exact fun w id x h => Or.inl h
  | succ depth ih =>
      intro w id x hx
      rw [visit] at hx
      split at hx
      · exact Or.inl hx
      · rcases reaches_of_mem_seen_foldl ih (next id) _ x hx with h | ⟨y, hy, h⟩
        · rcases List.mem_cons.1 h with rfl | h
          · exact Or.inr .refl
          · exact Or.inl h
        · exact Or.inr (.head hy h)

/-- A walk from nothing sees exactly what can be reached from where it starts. -/
theorem mem_seen_foldl_visit_iff (hnext : ∀ x, ∀ y ∈ next x, y ∈ universe') {depth : Nat}
    (hdepth : universe'.length < depth) {ids : List OperatorId} (hids : ∀ id ∈ ids, id ∈ universe')
    {x : OperatorId} :
    x ∈ (ids.foldl (visit next depth) .start).seen ↔
      ∃ id ∈ ids, Relation.ReflTransGen (Step next) id x := by
  constructor
  · intro hx
    have hreach := reaches_of_mem_seen_foldl (reaches_of_mem_seen depth) ids .start x hx
    exact hreach.resolve_left List.not_mem_nil
  · obtain ⟨hcont, hmem⟩ := foldl_visit_sound universe' hnext depth ids .start .start hids
      (Nat.lt_of_le_of_lt (List.length_filter_le _ _) hdepth)
    rintro ⟨id, hid, hreach⟩
    induction hreach with
    | refl => exact hmem id hid
    | @tail y z _ hstep ih =>
        have hleft : y ∈ (ids.foldl (visit next depth) .start).left := by
          by_contra hnot
          exact absurd ((hcont.open_iff y).1 ⟨ih, hnot⟩).1 List.not_mem_nil
        exact hcont.sound.closed y hleft z hstep

/-! ## Order -/

/-- Every operator stands before all that it leads to. -/
def Ordered (next : OperatorId → List OperatorId) (l : List OperatorId) : Prop :=
  ∀ before x after, l = before ++ x :: after → ∀ y ∈ next x, y ∈ after

theorem Ordered.cons {l : List OperatorId} {id : OperatorId} (h : Ordered next l)
    (hid : ∀ y ∈ next id, y ∈ l) : Ordered next (id :: l) := by
  intro before x after he y hy
  cases before with
  | nil =>
      obtain ⟨rfl, rfl⟩ := List.cons.inj he
      exact hid y hy
  | cons b rest =>
      obtain ⟨-, he⟩ := List.cons.inj he
      exact h rest x after he y hy

variable {rank : OperatorId → Nat}

/-- Visits, one after the other, of operators with higher ranks than all open ones. -/
theorem foldl_ordered (hnext : ∀ x, ∀ y ∈ next x, y ∈ universe') {depth : Nat}
    (hvisit : ∀ (w : Walk) (id : OperatorId), Sound next w → id ∈ universe' →
      unseen universe' w < depth → (∀ x, w.Open x → rank x < rank id) → Ordered next w.left →
      Ordered next (visit next depth w id).left)
    (ids : List OperatorId) (w : Walk) (hw : Sound next w) (hids : ∀ id ∈ ids, id ∈ universe')
    (hdepth : unseen universe' w < depth) (hopen : ∀ x, w.Open x → ∀ id ∈ ids, rank x < rank id)
    (hord : Ordered next w.left) : Ordered next (ids.foldl (visit next depth) w).left := by
  induction ids generalizing w with
  | nil => exact hord
  | cons id rest ih =>
      obtain ⟨hid, hids⟩ := List.forall_mem_cons.1 hids
      have hstep := (visit_sound universe' hnext depth w id hw hid hdepth).1
      refine ih (visit next depth w id) hstep.sound hids
        (Nat.lt_of_le_of_lt (unseen_le universe' hstep.seen_subset) hdepth) (fun x hx => ?_) ?_
      · exact (List.forall_mem_cons.1 (hopen x ((hstep.open_iff x).1 hx))).2
      · exact hvisit w id hw hid hdepth (fun x hx => hopen x hx id List.mem_cons_self) hord

/-- If ranks rise along steps and all open operators have lower ranks than the visited one, then the
list of operators left stays ordered. -/
theorem visit_ordered (hnext : ∀ x, ∀ y ∈ next x, y ∈ universe')
    (hrank : ∀ x, ∀ y ∈ next x, rank x < rank y) :
    ∀ (depth : Nat) (w : Walk) (id : OperatorId), Sound next w → id ∈ universe' →
      unseen universe' w < depth → (∀ x, w.Open x → rank x < rank id) → Ordered next w.left →
      Ordered next (visit next depth w id).left := by
  intro depth
  induction depth with
  | zero => exact fun w id _ _ h => absurd h (Nat.not_lt_zero _)
  | succ depth ih =>
      intro w id hw hid hdepth hopen hord
      by_cases hseen : id ∈ w.seen
      · rw [visit, if_pos (List.contains_iff_mem.2 hseen)]
        exact hord
      · rw [visit, if_neg fun h => hseen (List.contains_iff_mem.1 h)]
        have hlower : ∀ x, Open { w with seen := id :: w.seen } x →
            ∀ y ∈ next id, rank x < rank y := by
          rintro x ⟨hx, hleft⟩ y hy
          rcases List.mem_cons.1 hx with rfl | hx
          · exact hrank x y hy
          · exact Nat.lt_trans (hopen x ⟨hx, hleft⟩) (hrank id y hy)
        have hless := unseen_cons_lt universe' hid hseen
        obtain ⟨hbelow, hall⟩ := foldl_visit_sound universe' hnext depth (next id) _ (hw.see id)
          (hnext id) (by omega)
        refine (foldl_ordered universe' hnext ih (next id) _ (hw.see id) (hnext id) (by omega)
          hlower hord).cons fun y hy => ?_
        -- a successor has been seen and has a higher rank than every open operator
        by_contra hnot
        exact Nat.lt_irrefl _ (hlower y ((hbelow.open_iff y).1 ⟨hall y hy, hnot⟩) y hy)

theorem foldl_visit_ordered (hnext : ∀ x, ∀ y ∈ next x, y ∈ universe')
    (hrank : ∀ x, ∀ y ∈ next x, rank x < rank y) {depth : Nat} (hdepth : universe'.length < depth)
    {ids : List OperatorId} (hids : ∀ id ∈ ids, id ∈ universe') :
    Ordered next (ids.foldl (visit next depth) .start).left :=
  foldl_ordered universe' hnext (visit_ordered universe' hnext hrank depth) ids .start .start hids
    (Nat.lt_of_le_of_lt (List.length_filter_le _ _) hdepth)
    (fun x h => absurd h.1 List.not_mem_nil) fun before x after he => by cases before <;> cases he

end Walk

/-! ## Walks over graphs -/

namespace Graph

variable {γ : Type} {g : Graph γ}

theorem mem_ids {id : OperatorId} : id ∈ g.ids ↔ g.contains id = true := by
  rw [ids, List.mem_filter, List.mem_range, and_iff_right_iff_imp]
  intro h
  by_contra hlt
  simp [contains, node?, List.getElem?_eq_none (Nat.not_lt.1 hlt)] at h

theorem mem_ids_of_operator? {id : OperatorId} {op : Operator γ} (h : g.operator? id = some op) :
    id ∈ g.ids := by
  refine mem_ids.2 ?_
  unfold operator? at h
  unfold contains
  cases hn : g.node? id with
  | none => simp [hn] at h
  | some n => rfl

theorem contains_of_mem_succeeding {e : Edge} {s : OperatorId} (h : e ∈ g.succeeding s) :
    g.contains s = true := by
  unfold succeeding at h
  unfold contains
  cases hn : g.node? s with
  | none => simp [hn] at h
  | some n => rfl

theorem length_ids_le (g : Graph γ) : g.ids.length ≤ g.slots.length :=
  Nat.le_trans (List.length_filter_le _ _) (by simp)

theorem mem_forward {x y : OperatorId} :
    y ∈ g.forward x ↔
      g.contains y = true ∧ ∃ e ∈ g.succeeding x, e.target = y ∧ e.feedback = false := by
  simp only [forward, List.mem_map, List.mem_filter, Bool.and_eq_true, Bool.not_eq_true']
  constructor
  · rintro ⟨e, ⟨he, hf, hc⟩, rfl⟩
    exact ⟨hc, e, he, rfl, hf⟩
  · rintro ⟨hc, e, he, rfl, hf⟩
    exact ⟨e, ⟨he, hf, hc⟩, rfl⟩

theorem mem_consumers {x y : OperatorId} :
    y ∈ g.consumers x ↔ g.contains y = true ∧ ∃ e ∈ g.succeeding x, e.target = y := by
  simp only [consumers, List.mem_filter, List.mem_map]
  tauto

theorem forward_subset (g : Graph γ) : ∀ x, ∀ y ∈ g.forward x, y ∈ g.ids :=
  fun _ _ hy => mem_ids.2 (mem_forward.1 hy).1

theorem consumers_subset (g : Graph γ) : ∀ x, ∀ y ∈ g.consumers x, y ∈ g.ids :=
  fun _ _ hy => mem_ids.2 (mem_consumers.1 hy).1

/-- What a topological order promises: every operator once, after its forward producers. -/
structure IsTopological (g : Graph γ) (order : List OperatorId) : Prop where
  nodup : order.Nodup
  mem_iff : ∀ id, id ∈ order ↔ id ∈ g.ids
  producers_before : ∀ before id after, order = before ++ id :: after →
    ∀ s ∈ g.ids, id ∈ g.forward s → s ∈ before

section WalkFrom

variable {starts : List OperatorId}

theorem walkFrom_forward (hstarts : ∀ id ∈ starts, id ∈ g.ids) :
    Walk.Continues g.forward .start (g.walkFrom g.forward starts) ∧
      ∀ id ∈ starts, id ∈ (g.walkFrom g.forward starts).seen :=
  Walk.foldl_visit_sound g.ids g.forward_subset _ starts .start .start hstarts
    (Nat.lt_of_le_of_lt (List.length_filter_le _ _) (Nat.lt_succ_of_le g.length_ids_le))

/-- A walk that starts at all operators, in whatever order, leaves all of them. -/
theorem mem_left_walkFrom (hstarts : ∀ id, id ∈ starts ↔ id ∈ g.ids) {id : OperatorId} :
    id ∈ (g.walkFrom g.forward starts).left ↔ id ∈ g.ids := by
  have hsub : ∀ id ∈ starts, id ∈ g.ids := fun id h => (hstarts id).1 h
  obtain ⟨hcont, hall⟩ := walkFrom_forward hsub
  constructor
  · intro h
    obtain ⟨s, hs, hreach⟩ := (Walk.mem_seen_foldl_visit_iff g.ids g.forward_subset
      (Nat.lt_succ_of_le g.length_ids_le) hsub).1 (hcont.sound.seen_of_left id h)
    cases hreach with
    | refl => exact hsub id hs
    | tail _ hstep => exact g.forward_subset _ _ hstep
  · intro h
    by_contra hnot
    exact absurd ((hcont.open_iff id).1 ⟨hall id ((hstarts id).2 h), hnot⟩).1 List.not_mem_nil

end WalkFrom

theorem misplaced_eq_none {before l : List OperatorId} (h : g.misplaced before l = none) :
    ∀ l₁ id l₂, l = l₁ ++ id :: l₂ → ∀ s ∈ g.ids, id ∈ g.forward s →
      s ∈ l₁ ∨ s = id ∨ s ∈ before := by
  induction l generalizing before with
  | nil => exact fun l₁ id l₂ he => by cases l₁ <;> cases he
  | cons x rest ih =>
      intro l₁ id l₂ he s hs hid
      rw [misplaced] at h
      split at h
      · cases h
      · next hfind =>
        cases l₁ with
        | nil =>
            obtain ⟨rfl, rfl⟩ := List.cons.inj he
            have := List.find?_eq_none.1 hfind s hs
            simp only [List.contains_eq_mem, hid, decide_true, Bool.true_and, Bool.not_eq_true',
              decide_eq_false_iff_not, not_not, List.mem_cons] at this
            exact Or.inr this
        | cons y l₁ =>
            obtain ⟨rfl, htail⟩ := List.cons.inj he
            rcases ih h l₁ id l₂ htail s hs hid with h' | h' | h'
            · exact Or.inl (List.mem_cons_of_mem _ h')
            · exact Or.inr (Or.inl h')
            · rcases List.mem_cons.1 h' with rfl | h'
              · exact Or.inl List.mem_cons_self
              · exact Or.inr (Or.inr h')

/-- An order that is reported lists every operator once, after its forward producers. -/
theorem topologicalOrder_spec {order : List OperatorId} (h : g.topologicalOrder = .ok order) :
    g.IsTopological order := by
  obtain ⟨hcont, hall⟩ := walkFrom_forward (g := g) fun _ h => h
  simp only [topologicalOrder] at h
  split at h
  · cases h
  · next hnone =>
    cases h
    obtain ⟨hself, hplace⟩ := Option.or_eq_none_iff.1 hnone
    refine ⟨hcont.sound.nodup, fun id => mem_left_walkFrom fun _ => Iff.rfl,
      fun before id after he s hs hid => ?_⟩
    rcases misplaced_eq_none hplace before id after he s hs hid with h | rfl | h
    · exact h
    · have := List.find?_eq_none.1 hself s (List.mem_reverse.2 (hall s hs))
      exact absurd (List.contains_iff_mem.2 hid) this
    · exact absurd h List.not_mem_nil

/-- Nothing is out of place in a list that is ordered along forward edges. -/
theorem misplaced_of_ordered {left : List OperatorId} (hord : Walk.Ordered g.forward left)
    (hnodup : left.Nodup) (l before : List OperatorId)
    (hcover : ∀ id ∈ g.ids, id ∈ before ∨ id ∈ l) (hleft : before.reverse ++ l = left) :
    g.misplaced before l = none := by
  induction l generalizing before with
  | nil => rfl
  | cons x rest ih =>
      have hfind : (g.ids.find? fun s => (g.forward s).contains x && !(x :: before).contains s) =
          none := by
        refine List.find?_eq_none.2 fun s hs h => ?_
        simp only [Bool.and_eq_true, Bool.not_eq_true', List.contains_eq_mem, decide_eq_true_eq,
          decide_eq_false_iff_not, List.mem_cons, not_or] at h
        obtain ⟨hx, hne, hbefore⟩ := h
        rcases List.mem_cons.1 ((hcover s hs).resolve_left hbefore) with rfl | hrest
        · exact hne rfl
        · -- the producer would stand behind its consumer
          obtain ⟨l₁, l₂, rfl⟩ := List.append_of_mem hrest
          have hafter := hord (before.reverse ++ x :: l₁) s l₂ (by simp [← hleft]) x hx
          rw [← hleft] at hnodup
          have htail := (List.nodup_append.1 hnodup).2.1
          rw [List.nodup_cons] at htail
          exact htail.1 (List.mem_append_right _ (List.mem_cons_of_mem _ hafter))
      rw [misplaced]
      simp only [hfind]
      refine ih (x :: before) (fun id hid => ?_) (by simp [← hleft])
      rcases hcover id hid with h | h
      · exact Or.inl (List.mem_cons_of_mem _ h)
      · rcases List.mem_cons.1 h with rfl | h
        · exact Or.inl List.mem_cons_self
        · exact Or.inr h

/-- If ranks rise along forward edges there is a topological order. -/
theorem topologicalOrder_of_rank {rank : OperatorId → Nat}
    (hrank : ∀ x, ∀ y ∈ g.forward x, rank x < rank y) :
    ∃ order, g.topologicalOrder = .ok order := by
  have hord : Walk.Ordered g.forward (g.walkFrom g.forward g.ids).left :=
    Walk.foldl_visit_ordered g.ids g.forward_subset hrank (Nat.lt_succ_of_le g.length_ids_le)
      fun _ h => h
  have hself : ((g.walkFrom g.forward g.ids).seen.reverse.find? fun id =>
      (g.forward id).contains id) = none := by
    refine List.find?_eq_none.2 fun id _ h => ?_
    exact absurd (hrank id id (List.contains_iff_mem.1 h)) (Nat.lt_irrefl _)
  have hplace := misplaced_of_ordered hord (walkFrom_forward fun _ h => h).1.sound.nodup _ []
    (fun id hid => Or.inr ((mem_left_walkFrom fun _ => Iff.rfl).2 hid)) rfl
  refine ⟨(g.walkFrom g.forward g.ids).left, ?_⟩
  simp only [topologicalOrder, hself, Option.none_or, hplace]

/-- A topological order ranks the operators of the graph. -/
theorem IsTopological.exists_rank {order : List OperatorId} (h : g.IsTopological order) :
    ∃ rank : OperatorId → Nat, ∀ x ∈ g.ids, ∀ y ∈ g.forward x, rank x < rank y := by
  refine ⟨fun x => order.idxOf x, fun x hx y hy => ?_⟩
  have hmem : y ∈ order := (h.mem_iff y).2 (g.forward_subset x y hy)
  obtain ⟨before, after, rfl, hnot⟩ := List.eq_append_cons_of_mem hmem
  have hbefore := h.producers_before before y after rfl x hx hy
  change List.idxOf x (before ++ y :: after) < List.idxOf y (before ++ y :: after)
  rw [List.idxOf_append_of_mem hbefore, List.idxOf_append_of_notMem hnot, List.idxOf_cons_self]
  exact Nat.lt_add_right 0 (List.idxOf_lt_length_of_mem hbefore)

/-- The order depends on the edges alone. -/
theorem topologicalOrder_congr {δ : Type} {g' : Graph δ}
    (hsucceeding : ∀ id, g'.succeeding id = g.succeeding id)
    (hcontains : ∀ id, g'.contains id = g.contains id)
    (hlength : g'.slots.length = g.slots.length) : g'.topologicalOrder = g.topologicalOrder := by
  have hcontains' : g'.contains = g.contains := funext hcontains
  have hids : g'.ids = g.ids := by rw [ids, ids, hlength, hcontains']
  have hforward : g'.forward = g.forward := by
    funext id
    rw [forward, forward, hsucceeding, hcontains']
  have hmisplaced : ∀ l before, g'.misplaced before l = g.misplaced before l := by
    intro l
    induction l with
    | nil => exact fun before => rfl
    | cons x rest ih =>
        intro before
        rw [misplaced, misplaced, hids, hforward]
        simp only [ih]
  simp only [topologicalOrder, walkFrom, hlength, hids, hforward, hmisplaced]

/-! ## Loops -/

/-- An edge of any kind between two operators of the graph. -/
def Leads (g : Graph γ) : OperatorId → OperatorId → Prop := Walk.Step g.consumers

/-- An operator is on a loop if a walk over edges of any kind leads from it back to itself. -/
def OnLoop (g : Graph γ) (id : OperatorId) : Prop := Relation.TransGen g.Leads id id

theorem mem_loopMembers_iff {id : OperatorId} : id ∈ g.loopMembers ↔ id ∈ g.ids ∧ g.OnLoop id := by
  rw [loopMembers, List.mem_filter, and_congr_right_iff]
  intro _
  rw [List.contains_iff_mem, walkFrom, Walk.mem_seen_foldl_visit_iff g.ids g.consumers_subset
    (Nat.lt_succ_of_le g.length_ids_le) (g.consumers_subset id)]
  rw [OnLoop, Relation.TransGen.head'_iff]
  exact Iff.rfl

/-- The operators on a loop are all in the graph. -/
theorem mem_loopMembers {id : OperatorId} : id ∈ g.loopMembers ↔ g.OnLoop id := by
  rw [mem_loopMembers_iff, and_iff_right_iff_imp]
  intro h
  obtain ⟨y, -, hlast⟩ := Relation.TransGen.tail'_iff.1 h
  exact g.consumers_subset y id hlast

/-- Without feedback edges a graph that has a topological order has no loops. -/
theorem IsTopological.not_onLoop {order : List OperatorId} (h : g.IsTopological order)
    (hforward : ∀ s, ∀ e ∈ g.succeeding s, e.feedback = false) (id : OperatorId) :
    ¬ g.OnLoop id := by
  obtain ⟨rank, hrank⟩ := h.exists_rank
  have hstep : ∀ x ∈ g.ids, ∀ y, g.Leads x y → y ∈ g.ids ∧ rank x < rank y := by
    intro x hx y hy
    obtain ⟨hc, e, he, rfl⟩ := mem_consumers.1 hy
    exact ⟨mem_ids.2 hc, hrank x hx _ (mem_forward.2 ⟨hc, e, he, rfl, hforward x e he⟩)⟩
  have hwalk : ∀ x ∈ g.ids, ∀ y, Relation.TransGen g.Leads x y → y ∈ g.ids ∧ rank x < rank y := by
    intro x hx y hxy
    induction hxy with
    | single hy => exact hstep x hx _ hy
    | tail _ hy ih =>
        obtain ⟨hz, hlt⟩ := hstep _ ih.1 _ hy
        exact ⟨hz, Nat.lt_trans ih.2 hlt⟩
  intro hloop
  have hid : id ∈ g.ids := (mem_loopMembers_iff.1 (mem_loopMembers.2 hloop)).1
  exact absurd (hwalk id hid id hloop).2 (Nat.lt_irrefl _)

end Graph

end QuadAlgebra
