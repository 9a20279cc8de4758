import Mathlib.Data.Fintype.EquivFin
import Mathlib.Data.List.Permutation
import Mathlib.Data.Set.Finite.List
import Mathlib.Logic.Relation
import Mathlib.Order.Bounds.Defs
import QuadAlgebra.Proofs.Modifiers.Dependencies

/-!
# Orders of computed variables

The dependencies between some bindings make a relation on them, and sorting succeeds exactly if that
relation has no cycle (`Binding.sort_of_nodup`). Each round of the sorting takes the bindings whose
longest chain of dependencies has as many steps as there were rounds before (`Binding.Stage`), so
bindings with equally long chains keep their order.

All of this is about bindings with different targets. A round takes a variable for computed as soon
as one of its bindings is, so what mentions a repeated target may come before one of its bindings
(`Binding.sort_repeated_target`).
-/

namespace QuadAlgebra

namespace Binding

/-! ## Dependencies between bindings -/

/-- The expression of the first binding mentions the variable that the second one computes. -/
def DependsOn (b c : Binding) : Prop := c.target ∈ b.expression.vars

/-- Both are in the list, and the first depends on the second. -/
def Links (bindings : List Binding) (b c : Binding) : Prop :=
  b ∈ bindings ∧ c ∈ bindings ∧ b.DependsOn c

/-- No binding of the list depends on itself, be it through others. -/
def Acyclic (bindings : List Binding) : Prop :=
  ∀ b, ¬ Relation.TransGen (Links bindings) b b

/-- A chain of so many dependencies starts at the binding. -/
def Chained (bindings : List Binding) : Nat → Binding → Prop
  | 0, _ => True
  | n + 1, b => ∃ c ∈ bindings, b.DependsOn c ∧ Chained bindings n c

/-- The longest chain of dependencies that starts at the binding has so many steps. -/
def LongestChain (bindings : List Binding) (b : Binding) (n : Nat) : Prop :=
  IsGreatest {m | Chained bindings m b} n

variable {bindings pending order : List Binding} {resolved : VarSet} {b c : Binding} {n : Nat}

theorem Chained.of_succ (h : Chained bindings (n + 1) b) : Chained bindings n b := by
  induction n generalizing b with
  | zero => exact trivial
  | succ n ih =>
      obtain ⟨c, hc, hdepends, hchain⟩ := h
      exact ⟨c, hc, hdepends, ih hchain⟩

theorem LongestChain.not_chained (h : LongestChain bindings b n) :
    ¬ Chained bindings (n + 1) b :=
  fun hchain => Nat.not_succ_le_self n (h.2 hchain)

/-- A binding that ends no round before starts a chain of as many steps. -/
theorem LongestChain.eq_of_not_chained {m : Nat} (h : LongestChain bindings b m)
    (hn : Chained bindings n b) (hnot : ¬ Chained bindings (n + 1) b) : m = n := by
  refine Nat.le_antisymm ?_ (h.2 hn)
  by_contra hlt
  have hchain : Chained bindings m b := h.1
  -- a long chain has all shorter ones in front
  have hshort (k : Nat) : Chained bindings (n + 1 + k) b → Chained bindings (n + 1) b := by
    induction k with
    | zero => exact fun hk => hk
    | succ k ih => exact fun hk => ih hk.of_succ
  refine hnot (hshort (m - (n + 1)) ?_)
  rwa [Nat.add_sub_cancel' (Nat.lt_of_not_le hlt)]

/-- The second binding of the list depends on the first one, be it through others. -/
def Below (bindings : List Binding) (c b : {b // b ∈ bindings}) : Prop :=
  Relation.TransGen (Links bindings) b.1 c.1

theorem Acyclic.wellFounded_below (h : Acyclic bindings) : WellFounded (Below bindings) := by
  have : Finite {b // b ∈ bindings} := List.finite_toSet bindings
  have : IsTrans _ (Below bindings) := ⟨fun _ _ _ hc hb => Relation.TransGen.trans hb hc⟩
  have : Std.Irrefl (Below bindings) := ⟨fun b => h b.1⟩
  exact Finite.wellFounded_of_trans_of_irrefl (Below bindings)

/-- In a nonempty part of the list some binding depends on no binding of that part. -/
theorem Acyclic.exists_first (h : Acyclic bindings) (hpending : ∀ b ∈ pending, b ∈ bindings)
    (hne : pending ≠ []) : ∃ b ∈ pending, ∀ c ∈ pending, ¬ b.DependsOn c := by
  obtain ⟨b₀, hb₀⟩ := List.exists_mem_of_ne_nil _ hne
  obtain ⟨⟨b, hmem⟩, hb, hmin⟩ :=
    h.wellFounded_below.has_min {b | b.1 ∈ pending} ⟨⟨b₀, hpending b₀ hb₀⟩, hb₀⟩
  exact ⟨b, hb, fun c hc hdepends =>
    hmin ⟨c, hpending c hc⟩ hc (.single ⟨hmem, hpending c hc, hdepends⟩)⟩

/-! ## Rounds -/

/-- What one round starts from: the bindings that start chains of so many steps are pending, and the
targets of all others are resolved. -/
structure Stage (bindings : List Binding) (n : Nat) (resolved : VarSet) (pending : List Binding) :
    Prop where
  mem_pending : ∀ b, b ∈ pending ↔ b ∈ bindings ∧ Chained bindings n b
  mem_resolved : ∀ v, v ∈ resolved ↔ ∃ b ∈ bindings, b.target = v ∧ ¬ Chained bindings n b

theorem stage_start (bindings : List Binding) : Stage bindings 0 ∅ bindings where
  mem_pending b := by simp [Chained]
  mem_resolved v := by simp [Chained]

theorem eq_of_target_eq (hnodup : (bindings.map target).Nodup) (hb : b ∈ bindings)
    (hc : c ∈ bindings) (h : b.target = c.target) : b = c :=
  List.inj_on_of_nodup_map hnodup hb hc h

section Rounds

variable (hnodup : (bindings.map target).Nodup) (hstage : Stage bindings n resolved pending)

include hnodup hstage

/-- Ready are the bindings that start no longer chain. -/
theorem Stage.isReady_iff (b : Binding) :
    b.isReady (OrdSet.ofList (bindings.map target)) resolved = true ↔
      ¬ Chained bindings (n + 1) b := by
  rw [isReady, OrdSet.isSubset_iff]
  simp only [dependencies, OrdSet.mem_inter, OrdSet.mem_ofList, List.mem_map]
  constructor
  · rintro h ⟨c, hc, hdepends, hchain⟩
    obtain ⟨c', hc', htarget, hnot⟩ := (hstage.mem_resolved _).1 (h _ ⟨hdepends, c, hc, rfl⟩)
    obtain rfl := eq_of_target_eq hnodup hc' hc htarget
    exact hnot hchain
  · rintro h v ⟨hv, c, hc, rfl⟩
    exact (hstage.mem_resolved _).2 ⟨c, hc, rfl, fun hchain => h ⟨c, hc, hv, hchain⟩⟩

theorem Stage.mem_ready : b ∈ ready (OrdSet.ofList (bindings.map target)) resolved pending ↔
    b ∈ pending ∧ ¬ Chained bindings (n + 1) b := by
  rw [ready, List.mem_filter, hstage.isReady_iff hnodup]

/-- After a round the next one starts. -/
theorem Stage.next : Stage bindings (n + 1)
    (OrdSet.ofList ((ready (OrdSet.ofList (bindings.map target)) resolved pending).map target) ∪
      resolved)
    (blocked (OrdSet.ofList (bindings.map target)) resolved pending) where
  mem_pending b := by
    rw [blocked, List.mem_filter, Bool.not_eq_true', ← Bool.not_eq_true, hstage.isReady_iff hnodup,
      not_not, hstage.mem_pending]
    exact ⟨fun h => ⟨h.1.1, h.2⟩, fun h => ⟨⟨h.1, h.2.of_succ⟩, h.2⟩⟩
  mem_resolved v := by
    rw [OrdSet.mem_union, OrdSet.mem_ofList, List.mem_map, hstage.mem_resolved]
    constructor
    · rintro (⟨b, hb, rfl⟩ | ⟨b, hb, rfl, hnot⟩)
      · obtain ⟨hb, hnot⟩ := (hstage.mem_ready hnodup).1 hb
        exact ⟨b, ((hstage.mem_pending b).1 hb).1, rfl, hnot⟩
      · exact ⟨b, hb, rfl, fun hchain => hnot hchain.of_succ⟩
    · rintro ⟨b, hb, rfl, hnot⟩
      by_cases hchain : Chained bindings n b
      · exact .inl ⟨b, (hstage.mem_ready hnodup).2 ⟨(hstage.mem_pending b).2 ⟨hb, hchain⟩, hnot⟩,
          rfl⟩
      · exact .inr ⟨b, hb, rfl, hchain⟩

/-- As long as dependencies have no cycle, some binding is ready. -/
theorem Stage.ready_ne_nil (hacyclic : Acyclic bindings) (hne : pending ≠ []) :
    ready (OrdSet.ofList (bindings.map target)) resolved pending ≠ [] := by
  obtain ⟨b, hb, hfirst⟩ := hacyclic.exists_first
    (fun b hb => ((hstage.mem_pending b).1 hb).1) hne
  refine List.ne_nil_of_mem ((hstage.mem_ready hnodup).2 ⟨hb, ?_⟩)
  rintro ⟨c, hc, hdepends, hchain⟩
  exact hfirst c ((hstage.mem_pending c).2 ⟨hc, hchain⟩) hdepends

/-- Bindings whose longest chains have as many steps as there were rounds are ready. -/
theorem Stage.forall_isReady (hb : LongestChain bindings b n) (hc : LongestChain bindings c n) :
    ∀ x ∈ [b, c], x.isReady (OrdSet.ofList (bindings.map target)) resolved = true := by
  simp only [List.mem_cons, List.not_mem_nil, or_false, forall_eq_or_imp, forall_eq,
    hstage.isReady_iff hnodup]
  exact ⟨hb.not_chained, hc.not_chained⟩

/-- Pending bindings with longer chains are not. -/
theorem Stage.forall_not_isReady {m : Nat} (hm : m ≠ n) (hb : LongestChain bindings b m)
    (hc : LongestChain bindings c m) (hpending : ∀ x ∈ [b, c], x ∈ pending) :
    ∀ x ∈ [b, c], (!x.isReady (OrdSet.ofList (bindings.map target)) resolved) = true := by
  have hwaits {x : Binding} (hx : x ∈ pending) (hlong : LongestChain bindings x m) :
      Chained bindings (n + 1) x := by
    by_contra hnot
    exact hm (hlong.eq_of_not_chained ((hstage.mem_pending x).1 hx).2 hnot)
  simp only [List.mem_cons, List.not_mem_nil, or_false, forall_eq_or_imp, forall_eq,
    Bool.not_eq_true', ← Bool.not_eq_true, hstage.isReady_iff hnodup, not_not] at hpending ⊢
  exact ⟨hwaits hpending.1 hb, hwaits hpending.2 hc⟩

end Rounds

/-! ## Runs of rounds -/

theorem exists_order_of_acyclic (hnodup : (bindings.map target).Nodup) (hacyclic : Acyclic bindings)
    (hstage : Stage bindings n resolved pending) :
    ∃ order, Binding.order (OrdSet.ofList (bindings.map target)) resolved pending = .ok order := by
  generalize htargets : OrdSet.ofList (bindings.map target) = targets
  fun_induction Binding.order targets resolved pending generalizing n with
  | case1 => exact ⟨[], rfl⟩
  | case2 _ _ hempty hready =>
      subst htargets
      exact absurd hready (hstage.ready_ne_nil hnodup hacyclic fun h => hempty (h ▸ rfl))
  | case3 resolved pending _ _ next resolved' =>
      rename_i ih
      subst htargets
      obtain ⟨rest, hrest⟩ := ih (hstage.next hnodup)
      exact ⟨next ++ rest, by rw [hrest]; rfl⟩

/-- Bindings with equally long chains come out as they went in. -/
theorem sublist_order (hnodup : (bindings.map target).Nodup)
    (hstage : Stage bindings n resolved pending)
    (h : Binding.order (OrdSet.ofList (bindings.map target)) resolved pending = .ok order)
    {m : Nat} (hb : LongestChain bindings b m) (hc : LongestChain bindings c m)
    (hsub : [b, c].Sublist pending) : [b, c].Sublist order := by
  generalize htargets : OrdSet.ofList (bindings.map target) = targets at h
  fun_induction Binding.order targets resolved pending generalizing n order with
  | case1 _ _ hempty =>
      rw [List.isEmpty_iff.1 hempty] at hsub
      cases hsub
  | case2 => cases h
  | case3 resolved pending _ _ next =>
      rename_i resolved' ih
      subst htargets
      cases hrest : Binding.order (OrdSet.ofList (bindings.map target)) resolved'
          (blocked (OrdSet.ofList (bindings.map target)) resolved pending) with
      | error e =>
          rw [hrest] at h
          cases h
      | ok rest =>
          rw [hrest] at h
          obtain rfl := Except.ok.inj h
          by_cases hm : m = n
          · -- both come next
            have hnext := hsub.filter (isReady (OrdSet.ofList (bindings.map target)) resolved)
            rw [List.filter_eq_self.2 (hstage.forall_isReady hnodup (hm ▸ hb) (hm ▸ hc))] at hnext
            exact hnext.trans (List.sublist_append_left _ _)
          · -- both wait
            have hwait := hsub.filter
              fun x => !isReady (OrdSet.ofList (bindings.map target)) resolved x
            rw [List.filter_eq_self.2
              (hstage.forall_not_isReady hnodup hm hb hc hsub.subset)] at hwait
            exact (ih (hstage.next hnodup) hwait hrest).trans (List.sublist_append_right _ _)

/-- A run that stops says which variables depend on each other. -/
theorem order_error {targets : VarSet} {e : Error}
    (h : Binding.order targets resolved pending = .error e) :
    ∃ names, e = .malformed (.cyclicBindings names) := by
  fun_induction Binding.order targets resolved pending with
  | case1 => cases h
  | case2 => exact ⟨_, (Except.error.inj h).symm⟩
  | case3 resolved pending _ _ next resolved' ih =>
      cases hrest : Binding.order targets resolved' (blocked targets resolved pending) with
      | ok rest =>
          rw [hrest] at h
          cases h
      | error e' =>
          rw [hrest] at h
          obtain rfl := Except.error.inj h
          exact ih hrest

/-! ## Sorted bindings -/

/-- In sorted bindings with different targets each one comes after all that it depends on. -/
theorem mem_before_of_dependsOn (hnodup : (bindings.map target).Nodup)
    (h : Binding.sort bindings = .ok order) {before after : List Binding}
    (he : order = before ++ b :: after) (hc : c ∈ bindings) (hdepends : b.DependsOn c) :
    c ∈ before := by
  obtain ⟨hperm, hspec⟩ := sort_spec h
  obtain ⟨c', hc', htarget⟩ := List.mem_map.1
    (hspec before b after he c.target hdepends (List.mem_map_of_mem hc))
  have hmem : c' ∈ bindings := hperm.subset (he ▸ List.mem_append_left _ hc')
  exact eq_of_target_eq hnodup hmem hc htarget ▸ hc'

theorem acyclic_of_sort (hnodup : (bindings.map target).Nodup)
    (h : Binding.sort bindings = .ok order) : Acyclic bindings := by
  have hperm := (sort_spec h).1
  have hbefore {b c : Binding} {before after : List Binding} (he : order = before ++ b :: after)
      (hlinks : Relation.TransGen (Links bindings) b c) : c ∈ before := by
    induction hlinks with
    | single hlink => exact mem_before_of_dependsOn hnodup h he hlink.2.1 hlink.2.2
    | tail _ hlink ih =>
        obtain ⟨p, q, rfl⟩ := List.append_of_mem ih
        have hsplit := mem_before_of_dependsOn hnodup h
          (he.trans (List.append_assoc p _ _)) hlink.2.1 hlink.2.2
        exact List.mem_append_left _ hsplit
  intro b hcycle
  have hmem : b ∈ bindings := by
    cases hcycle with
    | single hlink => exact hlink.1
    | tail _ hlink => exact hlink.2.1
  obtain ⟨before, after, he⟩ := List.append_of_mem (hperm.mem_iff.2 hmem)
  have hnodup' : order.Nodup := hperm.nodup_iff.2 (List.Nodup.of_map _ hnodup)
  rw [he, List.nodup_append] at hnodup'
  exact hnodup'.2.2 b (hbefore he hcycle) b List.mem_cons_self rfl

/-- Sorting bindings with different targets succeeds exactly if their dependencies have no cycle,
and stops with an error about cycles otherwise. Sorted bindings are the given ones, each after all
that it depends on, where those with equally long chains of dependencies keep their order. -/
theorem sort_of_nodup (bindings : List Binding) (hnodup : (bindings.map target).Nodup) :
    ((∃ order, Binding.sort bindings = .ok order) ↔ Acyclic bindings) ∧
    (∀ order, Binding.sort bindings = .ok order →
      order.Perm bindings ∧
      (∀ before b after, order = before ++ b :: after →
        ∀ c ∈ bindings, b.DependsOn c → c ∈ before) ∧
      ∀ b c n, LongestChain bindings b n → LongestChain bindings c n →
        [b, c].Sublist bindings → [b, c].Sublist order) ∧
    (¬ Acyclic bindings →
      ∃ names, Binding.sort bindings = .error (.malformed (.cyclicBindings names))) := by
  have hiff : (∃ order, Binding.sort bindings = .ok order) ↔ Acyclic bindings :=
    ⟨fun ⟨_, h⟩ => acyclic_of_sort hnodup h,
      fun h => exists_order_of_acyclic hnodup h (stage_start bindings)⟩
  refine ⟨hiff, fun order h => ⟨(sort_spec h).1, fun before b after he c hc hdepends =>
    mem_before_of_dependsOn hnodup h he hc hdepends, fun b c n hb hc hsub =>
      sublist_order hnodup (stage_start bindings) h hb hc hsub⟩, fun hcyclic => ?_⟩
  cases hsort : Binding.sort bindings with
  | ok order => exact absurd (hiff.1 ⟨order, hsort⟩) hcyclic
  | error e =>
      obtain ⟨names, rfl⟩ := order_error hsort
      exact ⟨names, rfl⟩

/-- The value of a sum needs a variable that the last binding computes. -/
def chainOfSums : List Binding :=
  [⟨⟨"c"⟩, .binary (.variable ⟨"a"⟩) .plus (.variable ⟨"b"⟩)⟩,
    ⟨⟨"b"⟩, .binary (.variable ⟨"a"⟩) .plus (.variable ⟨"x"⟩)⟩, ⟨⟨"a"⟩, .constant (.simple "1")⟩]

theorem sort_of_nodup_chainOfSums :
    (chainOfSums.map target).Nodup ∧ Acyclic chainOfSums ∧
      ∀ order, Binding.sort chainOfSums = .ok order → order.Perm chainOfSums := by
  have hnodup : (chainOfSums.map target).Nodup := by decide
  obtain ⟨hiff, hspec, -⟩ := sort_of_nodup chainOfSums hnodup
  exact ⟨hnodup, hiff.1 ⟨chainOfSums.reverse, by cbv⟩, fun order h => (hspec order h).1⟩

/-- The second binding mentions a variable that two others compute, the later of which has to
wait. -/
def repeatedTarget : List Binding :=
  [⟨⟨"x"⟩, .constant (.simple "1")⟩, ⟨⟨"y"⟩, .variable ⟨"x"⟩⟩, ⟨⟨"x"⟩, .variable ⟨"z"⟩⟩,
    ⟨⟨"z"⟩, .constant (.simple "2")⟩]

/-- With repeated targets a binding may come before one that it depends on. -/
theorem sort_repeated_target : ∃ before b after c,
    Binding.sort repeatedTarget = .ok (before ++ b :: after) ∧ c ∈ repeatedTarget ∧
      b.DependsOn c ∧ c ∉ before := by
  refine ⟨[⟨⟨"x"⟩, .constant (.simple "1")⟩, ⟨⟨"z"⟩, .constant (.simple "2")⟩],
    ⟨⟨"y"⟩, .variable ⟨"x"⟩⟩, [⟨⟨"x"⟩, .variable ⟨"z"⟩⟩], ⟨⟨"x"⟩, .variable ⟨"z"⟩⟩,
    by cbv, ?_, ?_, ?_⟩
  · simp [repeatedTarget]
  · exact List.mem_singleton_self _
  · simp

end Binding

end QuadAlgebra
