import Mathlib.Data.Finset.Card
import QuadAlgebra.Proofs.Ordered.Laws
import QuadAlgebra.Proofs.Planning.Growth
import QuadAlgebra.Store.Basic

/-!
# What actions do to a store

Insertions and deletions, in whatever order they come, take the deleted quads away and then add the
inserted ones; the number returned is how many quads that removes and adds
(`Store.apply_eq_changed`). They cannot fail. A single command that fails leaves the store as it was
(`Store.apply_command_error`).
-/

namespace QuadAlgebra

/-! ## Sizes of sets -/

namespace OrdSet

variable {α : Type} [Ord α]

/-- The elements of a set that are not in another one. -/
def without [BEq α] (s t : OrdSet α) : OrdSet α := s.filter fun a => !t.contains a

variable [DecidableEq α]

@[simp] theorem mem_without {s t : OrdSet α} {a : α} : a ∈ s.without t ↔ a ∈ s ∧ ¬ a ∈ t := by
  rw [without, mem_filter]
  simp [← contains_iff]

variable [Std.LawfulEqOrd α]

/-- A set with its order forgotten. -/
def toFinset (s : OrdSet α) : Finset α := s.toList.toFinset

omit [Std.LawfulEqOrd α] in
@[simp] theorem mem_toFinset {s : OrdSet α} {a : α} : a ∈ s.toFinset ↔ a ∈ s := by
  rw [toFinset, List.mem_toFinset, mem_toList]

theorem size_eq_card (s : OrdSet α) : s.size = s.toFinset.card :=
  (List.toFinset_card_of_nodup s.nodup_toList).symm

/-- A set has the elements that it shares with another one and those that it does not. -/
theorem size_inter_add_size_without (s t : OrdSet α) :
    (s ∩ t).size + (s.without t).size = s.size := by
  simp only [size_eq_card]
  rw [← Finset.card_inter_add_card_sdiff s.toFinset t.toFinset]
  congr 2
  · ext a
    simp
  · ext a
    simp

variable [Std.TransOrd α]

/-- What is new among some elements, counted from the first one on. -/
theorem size_without_ofList_cons (a : α) (l : List α) (s : OrdSet α) :
    ((ofList (a :: l)).without s).size =
      (if s.contains a then 0 else 1) + ((ofList l).without (s.insert a)).size := by
  simp only [size_eq_card]
  by_cases ha : a ∈ s
  · rw [if_pos (contains_iff.2 ha), Nat.zero_add]
    congr 1
    ext x
    simp only [mem_toFinset, mem_without, mem_ofList, List.mem_cons, mem_insert]
    constructor
    · rintro ⟨rfl | hx, hs⟩
      · exact absurd ha hs
      · exact ⟨hx, by rintro (rfl | h) <;> contradiction⟩
    · exact fun ⟨hx, hs⟩ => ⟨.inr hx, fun h => hs (.inr h)⟩
  · rw [if_neg (by rwa [contains_iff])]
    have hsplit : ((ofList (a :: l)).without s).toFinset =
        Insert.insert a ((ofList l).without (s.insert a)).toFinset := by
      ext x
      simp only [mem_toFinset, mem_without, mem_ofList, List.mem_cons, mem_insert,
        Finset.mem_insert]
      by_cases hx : x = a
      · simp [hx, ha]
      · simp [hx]
    have hnew : a ∉ ((ofList l).without (s.insert a)).toFinset := by
      rw [mem_toFinset, mem_without, mem_insert]
      tauto
    rw [hsplit, Finset.card_insert_of_notMem hnew, Nat.add_comm]

end OrdSet

namespace Store

/-! ## Deletions and insertions -/

/-- The quads that some actions insert. -/
def insertions (actions : List Action) : List Quad :=
  actions.filterMap fun
    | .insert q => some q
    | _ => none

/-- A store without some quads and then with others, whose graphs it knows from then on. -/
def changed (s : Store) (deleted inserted : OrdSet Quad) : Store :=
  ⟨s.quads.without deleted ∪ inserted,
    s.graphs ∪ OrdSet.ofList (inserted.toList.filterMap Quad.graph)⟩

/-- How many quads such a change removes and adds. -/
def changeCount (s : Store) (deleted inserted : OrdSet Quad) : Nat :=
  (s.quads ∩ deleted).size + (inserted.without (s.quads.without deleted)).size

theorem ext {s t : Store} (hquads : ∀ q, q ∈ s.quads ↔ q ∈ t.quads)
    (hgraphs : ∀ g, g ∈ s.graphs ↔ g ∈ t.graphs) : s = t := by
  cases s
  cases t
  rw [Store.mk.injEq]
  exact ⟨OrdSet.eq_of_mem_iff hquads, OrdSet.eq_of_mem_iff hgraphs⟩

theorem mem_graphs_changed {s : Store} {deleted inserted : OrdSet Quad} {g : Term} :
    g ∈ (s.changed deleted inserted).graphs ↔
      g ∈ s.graphs ∨ ∃ q, q ∈ inserted ∧ q.graph = some g := by
  simp [changed]

theorem mem_quads_insert {s : Store} {q r : Quad} : r ∈ (s.insert q).quads ↔ r = q ∨ r ∈ s.quads :=
  OrdSet.mem_insert

theorem mem_graphs_insert {s : Store} {q : Quad} {g : Term} :
    g ∈ (s.insert q).graphs ↔ q.graph = some g ∨ g ∈ s.graphs := by
  rw [insert]
  cases hq : q.graph with
  | none => simp
  | some h =>
      rw [OrdSet.mem_insert]
      simp [eq_comm]

theorem foldl_remove (qs : List Quad) (s : Store) :
    qs.foldl remove s = s.changed (.ofList qs) ∅ := by
  induction qs generalizing s with
  | nil =>
      refine ext (fun q => ?_) fun g => ?_
      · simp [changed]
      · simp [mem_graphs_changed]
  | cons q rest ih =>
      rw [List.foldl_cons, ih]
      refine ext (fun r => ?_) fun g => ?_
      · simp only [changed, remove, OrdSet.erase, OrdSet.mem_union, OrdSet.mem_without,
          OrdSet.mem_filter, OrdSet.mem_ofList, OrdSet.not_mem_empty, or_false, List.mem_cons]
        by_cases hr : r = q <;> simp [hr]
      · simp [mem_graphs_changed, remove]

/-- The actions are insertions and deletions of quads. -/
def OnQuads (actions : List Action) : Prop := ∀ c, Action.command c ∉ actions

/-- Insertions among some actions, carried out in order on top of a count. -/
theorem foldlM_runAction {actions : List Action} (h : OnQuads actions) (s : Store) (n : Nat) :
    (actions.foldlM (fun changed a => do return changed + (← runAction a)) n : Edit Store Nat).runOn
        s =
      (.ok (n + ((OrdSet.ofList (insertions actions)).without s.quads).size),
        s.changed ∅ (.ofList (insertions actions))) := by
  induction actions generalizing s n with
  | nil =>
      rw [List.foldlM_nil, Edit.runOn_pure]
      refine Prod.ext rfl (ext (fun q => ?_) fun g => ?_)
      · simp [changed, insertions]
      · simp [mem_graphs_changed, insertions]
  | cons a rest ih =>
      have hrest : OnQuads rest := fun c hc => h c (List.mem_cons_of_mem _ hc)
      rw [List.foldlM_cons, Edit.runOn_bind]
      cases a with
      | command c => exact absurd List.mem_cons_self (h c)
      | delete q =>
          rw [show insertions (.delete q :: rest) = insertions rest from rfl]
          exact ih hrest s n
      | insert q =>
          rw [show insertions (.insert q :: rest) = q :: insertions rest from rfl,
            OrdSet.size_without_ofList_cons, ← Nat.add_assoc]
          refine (ih hrest (s.insert q) (n + if s.quads.contains q then 0 else 1)).trans
            (Prod.ext rfl (ext (fun r => ?_) fun g => ?_))
          · simp only [changed, OrdSet.mem_union, OrdSet.mem_without, mem_quads_insert,
              OrdSet.not_mem_empty, not_false_eq_true, and_true, OrdSet.mem_ofList, List.mem_cons]
            tauto
          · simp only [mem_graphs_changed, mem_graphs_insert, OrdSet.mem_ofList, List.mem_cons,
              exists_eq_or_imp]
            tauto

/-- Insertions and deletions always succeed. However they are mixed, first all deleted quads are
taken away and then all inserted ones are added. -/
theorem apply_eq_changed {actions : List Action} (h : OnQuads actions) (s : Store) :
    (apply actions).runOn s =
      (.ok (s.changeCount (.ofList (deletions actions)) (.ofList (insertions actions))),
        s.changed (.ofList (deletions actions)) (.ofList (insertions actions))) := by
  rw [apply, Edit.runOn_bind, Edit.runOn_get]
  dsimp only
  rw [Edit.runOn_bind, Edit.runOn_set, foldl_remove]
  dsimp only
  rw [foldlM_runAction h]
  have hsplit := OrdSet.size_inter_add_size_without s.quads (.ofList (deletions actions))
  have hpruned : (s.changed (.ofList (deletions actions)) ∅).quads =
      s.quads.without (.ofList (deletions actions)) :=
    OrdSet.eq_of_mem_iff fun q => by simp [changed]
  refine Prod.ext (congrArg Except.ok ?_) (ext (fun q => ?_) fun g => ?_)
  · rw [changeCount, size, size, hpruned]
    omega
  · simp [changed]
  · simp [mem_graphs_changed]

/-! ## Commands -/

/-- Naming a graph that is known changes nothing. -/
theorem createGraph_eq_self {s : Store} {g : Term} (h : s.graphs.contains g = true) :
    s.createGraph g = s := by
  refine ext (fun q => Iff.rfl) fun g' => ?_
  rw [createGraph, OrdSet.mem_insert, or_iff_right_iff_imp]
  rintro rfl
  exact OrdSet.contains_iff.1 h

/-- A command that fails has changed nothing: a graph that is missing or cannot be loaded is noticed
before anything is done, and one that exists already is there in any case. -/
theorem runCommand_error {c : GraphCommand} {s s' : Store} {e : Error}
    (h : (runCommand c).runOn s = (.error e, s')) : s' = s := by
  cases c with
  | clear target silent => cases (Prod.mk.inj h).1
  | load source destination silent =>
      cases silent with
      | true => cases (Prod.mk.inj h).1
      | false => exact (Prod.mk.inj h).2.symm
  | create g silent =>
      rw [runCommand] at h
      simp only [Edit.runOn_bind, Edit.runOn_get, Edit.runOn_set] at h
      split at h
      · next hexists =>
        rw [Bool.and_eq_true] at hexists
        rw [← (Prod.mk.inj h).2]
        exact createGraph_eq_self hexists.1
      · cases (Prod.mk.inj h).1
  | drop target silent =>
      rw [runCommand] at h
      simp only [Edit.runOn_bind, Edit.runOn_get] at h
      split at h
      · split at h
        · exact (Prod.mk.inj h).2.symm
        · cases (Prod.mk.inj h).1
      · cases (Prod.mk.inj h).1

end Store

end QuadAlgebra
