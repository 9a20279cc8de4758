import QuadAlgebra.Planning.Bindings
import QuadAlgebra.Proofs.Ordered.Laws

/-!
# Computed variables in order

Sorting keeps all bindings, and puts each behind those that it depends on: a computed variable that
an expression mentions has been computed when the expression is evaluated (`Binding.sort_spec`).
-/

namespace QuadAlgebra

namespace Binding

/-- Every binding of the list comes after some binding of each target that it mentions, unless that
is resolved from the beginning. -/
def Respects (targets resolved : VarSet) (order : List Binding) : Prop :=
  ∀ before b after, order = before ++ b :: after →
    ∀ v ∈ b.expression.vars, v ∈ targets → v ∈ resolved ∨ v ∈ before.map target

variable {targets resolved : VarSet} {pending order : List Binding}

theorem mem_resolved_of_isReady {b : Binding} (h : b.isReady targets resolved = true)
    {v : Variable} (hv : v ∈ b.expression.vars) (htarget : v ∈ targets) : v ∈ resolved :=
  OrdSet.contains_iff.1 (List.all_eq_true.1 h v (OrdSet.mem_inter.2 ⟨hv, htarget⟩))

/-- Ready bindings may come first, before others that rely on their targets. -/
theorem Respects.append {next rest : List Binding}
    (hnext : ∀ b ∈ next, b.isReady targets resolved = true)
    (hrest : Respects targets (OrdSet.ofList (next.map target) ∪ resolved) rest) :
    Respects targets resolved (next ++ rest) := by
  intro before b after he v hv htarget
  rcases List.append_eq_append_iff.1 he.symm with ⟨middle, rfl, hmiddle⟩ | ⟨middle, rfl, hmiddle⟩
  · cases middle with
    | nil =>
        rw [List.nil_append] at hmiddle
        rcases hrest [] b after hmiddle.symm v hv htarget with hresolved | hbefore
        · rcases OrdSet.mem_union.1 hresolved with hresolved | hresolved
          · exact .inr (by simpa using OrdSet.mem_ofList.1 hresolved)
          · exact .inl hresolved
        · cases hbefore
    | cons c middle =>
        obtain ⟨rfl, rfl⟩ := List.cons.inj hmiddle
        exact .inl (mem_resolved_of_isReady (hnext b (by simp)) hv htarget)
  · rcases hrest middle b after hmiddle v hv htarget with hresolved | hbefore
    · rcases OrdSet.mem_union.1 hresolved with hresolved | hresolved
      · exact .inr (by
          rw [List.map_append]
          exact List.mem_append_left _ (OrdSet.mem_ofList.1 hresolved))
      · exact .inl hresolved
    · exact .inr (by
        rw [List.map_append]
        exact List.mem_append_right _ hbefore)

theorem order_spec (h : Binding.order targets resolved pending = .ok order) :
    order.Perm pending ∧ Respects targets resolved order := by
  fun_induction Binding.order targets resolved pending generalizing order with
  | case1 _ _ hempty =>
      obtain rfl := Except.ok.inj h
      rw [List.isEmpty_iff.1 hempty]
      refine ⟨.refl _, fun before b after he => ?_⟩
      simp at he
  | case2 => cases h
  | case3 resolved pending _ _ next resolved' =>
      rename_i ih
      cases hrest : Binding.order targets resolved' (blocked targets resolved pending) with
      | error e =>
          rw [hrest] at h
          cases h
      | ok rest =>
          rw [hrest] at h
          obtain rfl := Except.ok.inj h
          obtain ⟨hperm, hrespects⟩ := ih hrest
          refine ⟨?_, hrespects.append fun b hb => (List.mem_filter.1 hb).2⟩
          exact (hperm.append_left next).trans (List.filter_append_perm _ pending)

/-- Sorted bindings are the given ones, each behind all that it depends on. -/
theorem sort_spec {bindings : List Binding} (h : Binding.sort bindings = .ok order) :
    order.Perm bindings ∧ ∀ before b after, order = before ++ b :: after →
      ∀ v ∈ b.expression.vars, v ∈ bindings.map target → v ∈ before.map target := by
  obtain ⟨hperm, hrespects⟩ := order_spec h
  refine ⟨hperm, fun before b after he v hv htarget => ?_⟩
  exact (hrespects before b after he v hv (OrdSet.mem_ofList.2 htarget)).resolve_left
    (OrdSet.not_mem_empty v)

end Binding

end QuadAlgebra
