import QuadAlgebra.Error

/-!
# The order of computed variables

A computed variable depends on the computed variables that its expression mentions. Bindings are
put in an order in which each comes after all that it depends on: in every round those come next
whose dependencies have all come before. A round in which nothing comes next shows a cycle.
-/

namespace QuadAlgebra

/-- A variable with the expression that gives its value. -/
structure Binding where
  target : Variable
  expression : Expression

namespace Binding

/-- The computed variables that a binding depends on. -/
def dependencies (targets : VarSet) (b : Binding) : VarSet := b.expression.vars ∩ targets

/-- Whether everything that a binding depends on is resolved. -/
def isReady (targets resolved : VarSet) (b : Binding) : Bool :=
  (b.dependencies targets).isSubset resolved

/-- The bindings that come next. -/
def ready (targets resolved : VarSet) (pending : List Binding) : List Binding :=
  pending.filter (isReady targets resolved)

/-- The bindings that still wait. -/
def blocked (targets resolved : VarSet) (pending : List Binding) : List Binding :=
  pending.filter fun b => !isReady targets resolved b

theorem length_blocked_lt {targets resolved : VarSet} {pending : List Binding}
    (h : ready targets resolved pending ≠ []) :
    (blocked targets resolved pending).length < pending.length := by
  obtain ⟨b, hb⟩ := List.exists_mem_of_ne_nil _ h
  obtain ⟨hb, hready⟩ := List.mem_filter.1 hb
  exact List.length_filter_lt_length_iff_exists.2 ⟨b, hb, by simp [hready]⟩

/-- Orders the bindings that remain once some variables are resolved. -/
def order (targets resolved : VarSet) (pending : List Binding) : Except Error (List Binding) :=
  if pending.isEmpty then .ok []
  else if _h : ready targets resolved pending = [] then
    .error (.malformed (.cyclicBindings (pending.map target)))
  else do
    let next := ready targets resolved pending
    let resolved' := OrdSet.ofList (next.map target) ∪ resolved
    return next ++ (← order targets resolved' (blocked targets resolved pending))
termination_by pending.length
decreasing_by exact length_blocked_lt ‹_›

/-- Bindings in an order that respects their dependencies. -/
def sort (bindings : List Binding) : Except Error (List Binding) :=
  order (OrdSet.ofList (bindings.map target)) ∅ bindings

end Binding

end QuadAlgebra
